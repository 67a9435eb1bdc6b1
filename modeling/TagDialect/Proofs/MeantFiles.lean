-- The files that paths mean: a path joined from a folder and the steps below it leads to
-- the file at these steps, and rewriting a file moves nothing else.
import TagDialect.Files
import Mathlib.Data.List.Basic

namespace TagDialect

/-! ## Steps of joined paths -/

theorem splitSlashes_ne_nil (cs : List Char) : splitSlashes cs ≠ [] := by
  fun_induction splitSlashes cs <;> simp

theorem splitSlashes_append (cs ds : List Char) :
    splitSlashes (cs ++ '/' :: ds) = splitSlashes cs ++ splitSlashes ds := by
  induction cs with
  | nil => simp [splitSlashes]
  | cons c cs ih =>
    obtain ⟨w, ws, hw⟩ := List.exists_cons_of_ne_nil (splitSlashes_ne_nil cs)
    simp only [List.cons_append, splitSlashes, ih, hw]
    by_cases hc : c = '/'
    · simp [hc]
    · simp [hc]

theorem splitSlashes_of_notMem {cs : List Char} (h : '/' ∉ cs) : splitSlashes cs = [cs] := by
  induction cs with
  | nil => rfl
  | cons c cs ih =>
    rw [List.mem_cons, not_or] at h
    simp [splitSlashes, ih h.2, Ne.symm h.1]

/-- A name that a file or a folder can have. -/
def IsName (name : String) : Prop :=
  name ≠ "" ∧ name ≠ "." ∧ name ≠ ".." ∧ '/' ∉ name.toList

instance (name : String) : Decidable (IsName name) := inferInstanceAs (Decidable (_ ∧ _))

theorem pathSteps_intercalate {names : List String} (hne : names ≠ [])
    (h : ∀ name ∈ names, IsName name) : pathSteps ("/".intercalate names) = names := by
  induction names with
  | nil => contradiction
  | cons name names ih =>
    obtain ⟨hname, hnames⟩ := List.forall_mem_cons.mp h
    obtain ⟨-, -, -, hslash⟩ := hname
    unfold pathSteps at *
    by_cases hlast : names = []
    · simp [hlast, splitSlashes_of_notMem hslash]
    · rw [String.intercalate_cons_of_ne_nil hlast, String.append_assoc, String.toList_append,
        String.toList_append]
      simp only [String.reduceToList, List.singleton_append, splitSlashes_append,
        splitSlashes_of_notMem hslash, List.map_cons, String.ofList_toList, ih hlast hnames]

/-- The steps of a joined path. A slash at the end of the folder's path gives that path one more
step, an empty one. -/
theorem pathSteps_joinPath (folder : String) {rel : List String} (hne : rel ≠ [])
    (h : ∀ name ∈ rel, IsName name) :
    ∃ front, front ≠ [] ∧ pathSteps (joinPath folder rel) = front ++ rel ∧
      (pathSteps folder = front ∨ pathSteps folder = front ++ [""]) := by
  have hrel := pathSteps_intercalate hne h
  have hfront : ∀ cs, (splitSlashes cs).map String.ofList ≠ [] := fun cs => by
    simp [splitSlashes_ne_nil]
  unfold pathSteps joinPath at *
  by_cases hslash : folder.toList.getLast? = some '/'
  · obtain ⟨cs, hcs⟩ := List.getLast?_eq_some_iff.mp hslash
    refine ⟨(splitSlashes cs).map String.ofList, hfront cs, ?_, .inr ?_⟩
    · rw [if_pos hslash, String.append_assoc, String.toList_append, hcs]
      simp only [String.empty_append, List.append_assoc, List.singleton_append,
        splitSlashes_append, List.map_append, hrel]
    · rw [hcs, splitSlashes_append]
      simp [splitSlashes]
  · refine ⟨(splitSlashes folder.toList).map String.ofList, hfront _, ?_, .inl rfl⟩
    rw [if_neg hslash, String.append_assoc]
    simp only [String.toList_append, String.reduceToList, List.singleton_append,
      splitSlashes_append, List.map_append, hrel]

/-- A joined path ends in the name that its steps end in. -/
theorem fileName?_joinPath (folder : String) {rel : List String} (hne : rel ≠ [])
    (h : ∀ name ∈ rel, IsName name) : fileName? (joinPath folder rel) = rel.getLast? := by
  obtain ⟨front, -, hjoin, -⟩ := pathSteps_joinPath folder hne h
  have hkept : rel.filter (fun step => step != "" && step != ".") = rel := by
    refine List.filter_eq_self.mpr fun name hname => ?_
    obtain ⟨hempty, hdot, -⟩ := h name hname
    simp [hempty, hdot]
  rw [fileName?, hjoin, List.filter_append, hkept, List.getLast?_append_of_ne_nil _ hne]

/-- The standard input is not named like a statement file. -/
theorem isStandardInput_of_fileName {path : String}
    (h : (fileName? path).any isStatementFile = true) : isStandardInput path = false := by
  rw [Bool.eq_false_iff]
  intro hdash
  unfold isStandardInput at hdash
  unfold fileName? at h
  split at hdash
  · rename_i first others hsteps
    rw [Bool.and_eq_true, beq_iff_eq, List.all_eq_true] at hdash
    obtain ⟨rfl, hothers⟩ := hdash
    have hnone : others.filter (fun step => step != "" && step != ".") = [] := by
      refine List.filter_eq_nil_iff.mpr fun step hstep => ?_
      have := hothers step hstep
      grind
    rw [hsteps, List.filter_cons_of_pos (by decide), hnone] at h
    exact absurd h (by decide)
  · contradiction

namespace Disk

/-! ## Files of a disk -/

/-- The steps of the files. -/
def places (d : Disk) : List (List String) := d.files.map Prod.fst

/-- What holds of the files of every disk: there are only names on the way to a file, and no file
stands where a folder does. -/
structure Sound (d : Disk) : Prop where
  names : ∀ steps ∈ d.places, ∀ name ∈ steps, IsName name
  apart : ∀ steps ∈ d.places, d.hasFolder steps = false

instance (d : Disk) : Decidable d.Sound :=
  decidable_of_iff ((∀ steps ∈ d.places, ∀ name ∈ steps, IsName name) ∧
    ∀ steps ∈ d.places, d.hasFolder steps = false)
    ⟨fun h => ⟨h.1, h.2⟩, fun h => ⟨h.names, h.apart⟩⟩

variable {d d' : Disk} {steps : List String}

theorem isSome_content? : (d.content? steps).isSome = true ↔ steps ∈ d.places := by
  simp [content?, places]

theorem hasFolder_iff : d.hasFolder steps = true ↔
    steps <+: d.here ∨ (∃ folder ∈ d.folders, steps <+: folder) ∨
      ∃ file ∈ d.places, steps <+: file.dropLast := by
  simp [hasFolder, places, or_assoc]

/-- Every folder on the way to a folder stands too. -/
theorem hasFolder_of_prefix {others : List String} (h : d.hasFolder others = true)
    (hway : steps <+: others) : d.hasFolder steps = true := by
  rw [hasFolder_iff] at h ⊢
  exact h.imp hway.trans (Or.imp (fun ⟨folder, hmem, hfolder⟩ => ⟨folder, hmem, hway.trans hfolder⟩)
    fun ⟨file, hmem, hfile⟩ => ⟨file, hmem, hway.trans hfile⟩)

theorem content?_write (other : List String) (bytes : ByteArray) :
    (d.write steps bytes).content? other =
      if other = steps then some bytes else d.content? other := by
  by_cases h : other = steps
  · simp [content?, write, h]
  · rw [if_neg h, content?, write, List.find?_cons_of_neg (by simpa using Ne.symm h),
      List.find?_filter, content?]
    congr 2
    funext f
    grind

theorem mem_below {base rel : List String} : rel ∈ d.below base ↔ base ++ rel ∈ d.places := by
  unfold below places
  simp only [List.mem_map, List.mem_filter, List.isPrefixOf_iff_prefix]
  constructor
  · rintro ⟨f, ⟨hf, hbase⟩, rfl⟩
    obtain ⟨rest, hrest⟩ := hbase
    exact ⟨f, hf, by simp [← hrest]⟩
  · rintro ⟨f, hf, hfile⟩
    exact ⟨f, ⟨hf, by simp [hfile]⟩, by simp [hfile]⟩

/-- The two disks have the same folders, and files in the same places. -/
structure SameTree (d d' : Disk) : Prop where
  here : d'.here = d.here
  folders : d'.folders = d.folders
  places : ∀ steps, steps ∈ d'.places ↔ steps ∈ d.places

namespace SameTree

theorem refl (d : Disk) : d.SameTree d := ⟨rfl, rfl, fun _ => .rfl⟩

theorem trans {d'' : Disk} (h : d.SameTree d') (h' : d'.SameTree d'') : d.SameTree d'' :=
  ⟨h'.here.trans h.here, h'.folders.trans h.folders,
    fun steps => (h'.places steps).trans (h.places steps)⟩

theorem symm (h : d.SameTree d') : d'.SameTree d :=
  ⟨h.here.symm, h.folders.symm, fun steps => (h.places steps).symm⟩

theorem hasFolder (h : d.SameTree d') (steps : List String) :
    d'.hasFolder steps = d.hasFolder steps := by
  rw [Bool.eq_iff_iff, hasFolder_iff, hasFolder_iff, h.here, h.folders]
  simp only [h.places]

theorem spot? (h : d.SameTree d') (path : String) : d'.spot? path = d.spot? path := by
  have hfile : ∀ steps, (d'.content? steps).isSome = (d.content? steps).isSome := fun steps => by
    rw [Bool.eq_iff_iff, isSome_content?, isSome_content?]
    exact h.places steps
  have hstep : Spot.step d' = Spot.step d := by
    funext spot next
    cases spot with
    | file _ => rfl
    | folder steps => simp only [Spot.step, hfile, h.hasFolder]
  simp only [Disk.spot?, Disk.start, h.here, hstep]

theorem sound (h : d.SameTree d') (hd : d.Sound) : d'.Sound :=
  ⟨fun steps hs => hd.names steps ((h.places steps).mp hs),
    fun steps hs => (h.hasFolder steps).trans (hd.apart steps ((h.places steps).mp hs))⟩

end SameTree

/-- Rewriting a file leaves everything where it is. -/
theorem sameTree_write (h : steps ∈ d.places) (bytes : ByteArray) :
    d.SameTree (d.write steps bytes) := by
  refine ⟨rfl, rfl, fun other => ?_⟩
  rw [← isSome_content?, content?_write, ← isSome_content?]
  by_cases hother : other = steps
  · simpa [hother, isSome_content?] using h
  · rw [if_neg hother]

/-! ## Where paths lead -/

theorem hasFolder_of_file {rest : List String} (hne : rest ≠ []) (h : steps ++ rest ∈ d.places) :
    d.hasFolder steps = true := by
  refine hasFolder_iff.mpr (.inr (.inr ⟨_, h, ?_⟩))
  rw [List.dropLast_append_of_ne_nil hne]
  exact List.prefix_append steps _

/-- From a folder the names below it lead to the file that they stand for. -/
theorem walk_to_file (hd : d.Sound) {base rel : List String} (hne : rel ≠ [])
    (h : base ++ rel ∈ d.places) :
    rel.foldlM (Spot.step d) (.folder base) = some (.file (base ++ rel)) := by
  induction rel generalizing base with
  | nil => contradiction
  | cons name rel ih =>
    obtain ⟨hempty, hdot, hdots, -⟩ := hd.names _ h name (by simp)
    rw [List.foldlM_cons, Spot.step, if_neg (by simp [hempty, hdot]), if_neg hdots]
    by_cases hlast : rel = []
    · subst hlast
      simp [isSome_content?.mpr h]
    · rw [List.append_cons] at h ⊢
      -- No file stands at the names on the way: it would have a file below it.
      have hfolder := hasFolder_of_file hlast h
      have hnone : (d.content? (base ++ [name])).isSome = false := by
        rw [Bool.eq_false_iff, Ne, isSome_content?]
        intro hfile
        rw [hd.apart _ hfile] at hfolder
        contradiction
      simpa [hnone, hfolder] using ih hlast h

/-- The path of a file below a folder leads to the file. -/
theorem spot?_joinPath (hd : d.Sound) {folder : String} {base rel : List String} (hne : rel ≠ [])
    (hspot : d.spot? folder = some (.folder base)) (h : base ++ rel ∈ d.places) :
    d.spot? (joinPath folder rel) = some (.file (base ++ rel)) := by
  have hnames : ∀ name ∈ rel, IsName name := fun name hname => hd.names _ h name (by simp [hname])
  obtain ⟨front, -, hjoin, hfolder⟩ := pathSteps_joinPath folder hne hnames
  unfold spot? at hspot ⊢
  split at hspot
  · contradiction
  rename_i hpath
  obtain ⟨c, cs, hcs⟩ := List.exists_cons_of_ne_nil fun hnil =>
    hpath (String.toList_eq_nil_iff.mp hnil)
  have hchars : ∃ ds, (joinPath folder rel).toList = c :: ds := by
    unfold joinPath
    simp [hcs]
  obtain ⟨ds, hds⟩ := hchars
  have hnonempty : joinPath folder rel ≠ "" := fun hempty => by simp [hempty] at hds
  have hstart : d.start (joinPath folder rel) = d.start folder := by
    simp only [start, hds, hcs, List.head?_cons]
  have hbase : front.foldlM (Spot.step d) (.folder (d.start folder)) = some (.folder base) := by
    rcases hfolder with hfolder | hfolder
    · rwa [hfolder] at hspot
    · rw [hfolder, List.foldlM_append] at hspot
      rcases hfront : front.foldlM (Spot.step d) (.folder (d.start folder)) with
        - | (steps | steps)
      · simp [hfront] at hspot
      · simpa [hfront, Spot.step] using hspot
      · simp [hfront, Spot.step] at hspot
  rw [if_neg hnonempty, hjoin, hstart, List.foldlM_append, hbase]
  exact walk_to_file hd hne h

/-- Whether something stands at a spot. -/
def Spot.Stands (d : Disk) : Spot → Prop
  | .file steps => steps ∈ d.places
  | .folder steps => d.hasFolder steps = true

theorem stands_of_step {spot next : Spot} {name : String} (h : spot.Stands d)
    (hstep : spot.step d name = some next) : next.Stands d := by
  cases spot with
  | file _ => simp [Spot.step] at hstep
  | folder steps =>
    simp only [Spot.step] at hstep
    split_ifs at hstep with hstay hup hfile hfolder
    · exact Option.some.inj hstep ▸ h
    · exact Option.some.inj hstep ▸ hasFolder_of_prefix h (List.dropLast_prefix steps)
    · exact Option.some.inj hstep ▸ isSome_content?.mp hfile
    · exact Option.some.inj hstep ▸ hfolder

/-- Where a path leads, something stands. -/
theorem stands_of_spot? {path : String} {spot : Spot} (h : d.spot? path = some spot) :
    spot.Stands d := by
  have hwalk : ∀ (names : List String) (first : Spot), first.Stands d →
      names.foldlM (Spot.step d) first = some spot → spot.Stands d := by
    intro names
    induction names with
    | nil => exact fun first hfirst h => Option.some.inj h ▸ hfirst
    | cons name names ih =>
      intro first hfirst h
      rw [List.foldlM_cons, Option.bind_eq_bind, Option.bind_eq_some_iff] at h
      obtain ⟨next, hnext, h⟩ := h
      exact ih next (stands_of_step hfirst hnext) h
  have hstart : (Spot.folder (d.start path)).Stands d := by
    refine hasFolder_iff.mpr (.inl ?_)
    unfold start
    split
    · exact List.nil_prefix
    · exact List.prefix_rfl
  unfold spot? at h
  split at h
  · contradiction
  · exact hwalk _ _ hstart h

/-- A path that leads to a file leads to a place. -/
theorem mem_places_of_spot? {path : String} (h : d.spot? path = some (.file steps)) :
    steps ∈ d.places := stands_of_spot? h

/-! ## Walks through folders -/

/-- The files that a walk through a folder comes to are those below the folder, each by its path
from the folder on. -/
def Lists (walk : String → List String) (d : Disk) : Prop :=
  ∀ path base, d.spot? path = some (.folder base) → ∀ entry,
    (entry ∈ walk path ∧ ∃ steps, d.spot? entry = some (.file steps)) ↔
      ∃ rel, rel ≠ [] ∧ base ++ rel ∈ d.places ∧ entry = joinPath path rel

/-- A walk in the order of names is such a walk. -/
theorem lists_walk (hd : d.Sound) : d.Lists d.walk := by
  intro path base hspot entry
  have hentry : entry ∈ d.walk path ↔ ∃ rel, base ++ rel ∈ d.places ∧ joinPath path rel = entry := by
    simp [walk, hspot, mem_below]
  have hbase : base ∉ d.places := fun hfile => by
    have hfolder : d.hasFolder base = true := stands_of_spot? hspot
    rw [hd.apart base hfile] at hfolder
    contradiction
  rw [hentry]
  constructor
  · rintro ⟨⟨rel, hrel, rfl⟩, -⟩
    refine ⟨rel, ?_, hrel, rfl⟩
    rintro rfl
    exact hbase (by simpa using hrel)
  · rintro ⟨rel, hne, hrel, rfl⟩
    exact ⟨⟨rel, hrel, rfl⟩, _, spot?_joinPath hd hne hspot hrel⟩

theorem SameTree.lists (h : d.SameTree d') {walk : String → List String} (hw : d.Lists walk) :
    d'.Lists walk := by
  intro path base hspot entry
  rw [h.spot?] at hspot
  simp only [h.spot?, h.places]
  exact hw path base hspot entry

/-! ## Which files are meant -/

/-- The files that paths mean: one that a path leads to, whatever its name is, and a statement
file in or below a folder that a path leads to. -/
inductive Meant (d : Disk) (paths : List String) : List String → Prop
  | named {path steps} : path ∈ paths → d.spot? path = some (.file steps) → d.Meant paths steps
  | below {path base rel name} : path ∈ paths → d.spot? path = some (.folder base) →
      base ++ rel ∈ d.places → rel.getLast? = some name → isStatementFile name = true →
      d.Meant paths (base ++ rel)

theorem SameTree.meant (h : d.SameTree d') {paths : List String} (hm : d.Meant paths steps) :
    d'.Meant paths steps := by
  cases hm with
  | named hpath hspot => exact .named hpath (h.spot? _ ▸ hspot)
  | below hpath hspot hfile hlast hname =>
    exact .below hpath (h.spot? _ ▸ hspot) ((h.places _).mpr hfile) hlast hname

namespace Meant

variable {path : String} {paths : List String}

theorem mono {others : List String} (hsub : paths ⊆ others) (h : d.Meant paths steps) :
    d.Meant others steps := by
  cases h with
  | named hpath hspot => exact .named (hsub hpath) hspot
  | below hpath hspot hfile hlast hname => exact .below (hsub hpath) hspot hfile hlast hname

theorem cons_iff : d.Meant (path :: paths) steps ↔ d.Meant [path] steps ∨ d.Meant paths steps := by
  constructor
  · intro h
    cases h with
    | named hpath hspot =>
      exact (List.mem_cons.mp hpath).imp (fun hp => .named (List.mem_singleton.mpr hp) hspot)
        fun hp => .named hp hspot
    | below hpath hspot hfile hlast hname =>
      exact (List.mem_cons.mp hpath).imp
        (fun hp => .below (List.mem_singleton.mpr hp) hspot hfile hlast hname)
        fun hp => .below hp hspot hfile hlast hname
  · rintro (h | h)
    · exact h.mono (by simp)
    · exact h.mono (by simp)

theorem exists_content (h : d.Meant paths steps) : ∃ bytes, d.content? steps = some bytes := by
  rw [← Option.isSome_iff_exists, isSome_content?]
  cases h with
  | named _ hspot => exact mem_places_of_spot? hspot
  | below _ _ hfile _ _ => exact hfile

end Meant

/-- The input is the path of a file. -/
def LeadsTo (d : Disk) (input : String) (steps : List String) : Prop :=
  isStandardInput input = false ∧ d.spot? input = some (.file steps)

theorem LeadsTo.iff_eq {input : String} (h : d.LeadsTo input steps) (others : List String) :
    d.LeadsTo input others ↔ others = steps := by
  simp [LeadsTo, h.1, h.2, eq_comm]

theorem exists_content {input : String} (h : d.LeadsTo input steps) :
    ∃ bytes, d.content? steps = some bytes :=
  Option.isSome_iff_exists.mp (isSome_content?.mpr (mem_places_of_spot? h.2))

section
variable {walk : String → List String}

theorem isFile_lookBy {entry : String} : (d.lookBy walk entry).any Look.isFile = true ↔
    ∃ steps, d.spot? entry = some (.file steps) := by
  unfold lookBy
  rcases d.spot? entry with - | (base | steps) <;> simp [Look.isFile]

theorem mem_statementFiles {entry : String} {entries : List String} :
    entry ∈ statementFiles (d.lookBy walk) entries ↔ (entry ∈ entries ∧
      ∃ steps, d.spot? entry = some (.file steps)) ∧
      (fileName? entry).any isStatementFile = true := by
  rw [statementFiles, List.mem_filter, Bool.and_eq_true, isFile_lookBy, and_assoc]

/-- A path with nothing at it stops the search for the inputs. -/
theorem discover_of_missing {paths : List String} {path : String} (hpath : path ∈ paths)
    (hdash : isStandardInput path = false) (h : d.spot? path = none) :
    ∃ e, discover (d.lookBy walk) paths = .error e := by
  induction paths with
  | nil => contradiction
  | cons first paths ih =>
    simp only [discover]
    split
    · exact ⟨_, rfl⟩
    · rename_i hfound
      rcases List.mem_cons.mp hpath with rfl | hpath
      · simp [hdash, lookBy, h] at hfound
      · obtain ⟨e, he⟩ := ih hpath
        exact ⟨e, by rw [he]⟩

theorem discover_cons {look : String → Option Look} {path : String}
    {paths inputs others : List String} (h : discover look [path] = .ok inputs)
    (ho : discover look paths = .ok others) :
    discover look (path :: paths) = .ok (inputs ++ others) := by
  simp only [discover] at h ⊢
  split at h
  · contradiction
  · rw [ho]
    simpa using h

/-- The inputs lead to files, and to just those that the paths mean. -/
def Finds (d : Disk) (paths inputs : List String) : Prop :=
  (∀ input ∈ inputs, ∃ steps, d.LeadsTo input steps) ∧
    ∀ steps, d.Meant paths steps ↔ ∃ input ∈ inputs, d.LeadsTo input steps

/-- The path of a file is an input of its own, whatever the file's name is. -/
theorem discover_file {path : String} (hdash : isStandardInput path = false)
    (hspot : d.spot? path = some (.file steps)) :
    discover (d.lookBy walk) [path] = .ok [path] ∧ d.Finds [path] [path] := by
  refine ⟨by simp [discover, hdash, lookBy, hspot], ?_, fun others => ⟨?_, ?_⟩⟩
  · intro input hinput
    rw [List.mem_singleton.mp hinput]
    exact ⟨steps, hdash, hspot⟩
  · intro h
    cases h with
    | named hpath hother =>
      rw [List.mem_singleton.mp hpath] at hother
      exact ⟨path, List.mem_singleton_self _, hdash, hother⟩
    | below hpath hother =>
      rw [List.mem_singleton.mp hpath, hspot] at hother
      cases hother
  · rintro ⟨input, hinput, -, hleads⟩
    exact .named hinput hleads

/-- The path of a folder stands for the statement files below it. -/
theorem discover_folder (hd : d.Sound) (hwalk : d.Lists walk) {path : String}
    (hdash : isStandardInput path = false) {base : List String}
    (hspot : d.spot? path = some (.folder base)) :
    ∃ inputs, discover (d.lookBy walk) [path] = .ok inputs ∧ d.Finds [path] inputs := by
  have hentries := hwalk path base hspot
  refine ⟨statementFiles (d.lookBy walk) (walk path), ?_, ?_, fun steps => ⟨?_, ?_⟩⟩
  · simp [discover, hdash, lookBy, hspot]
  · intro input hinput
    obtain ⟨⟨-, steps, hleads⟩, hname⟩ := mem_statementFiles.mp hinput
    exact ⟨steps, isStandardInput_of_fileName hname, hleads⟩
  · intro h
    cases h with
    | named hpath hother =>
      rw [List.mem_singleton.mp hpath, hspot] at hother
      cases hother
    | @below _ _ rel name hpath hother hfile hlast hname =>
      rw [List.mem_singleton.mp hpath, hspot] at hother
      cases hother
      have hne : rel ≠ [] := by rintro rfl; simp at hlast
      have hnamed : (fileName? (joinPath path rel)).any isStatementFile = true := by
        rw [fileName?_joinPath path hne fun name hmem => hd.names _ hfile name (by simp [hmem]),
          hlast]
        exact hname
      refine ⟨joinPath path rel, mem_statementFiles.mpr ⟨?_, hnamed⟩,
        isStandardInput_of_fileName hnamed, spot?_joinPath hd hne hspot hfile⟩
      exact (hentries _).mpr ⟨rel, hne, hfile, rfl⟩
  · rintro ⟨input, hinput, -, hleads⟩
    obtain ⟨hentry, hnamed⟩ := mem_statementFiles.mp hinput
    obtain ⟨rel, hne, hfile, rfl⟩ := (hentries input).mp hentry
    cases (spot?_joinPath hd hne hspot hfile).symm.trans hleads
    rw [fileName?_joinPath path hne fun name hmem => hd.names _ hfile name (by simp [hmem]),
      Option.any_eq_true] at hnamed
    obtain ⟨name, hlast, hname⟩ := hnamed
    exact .below (List.mem_singleton_self _) hspot hfile hlast hname

/-- When something stands at each path, the search finds inputs, and they lead to just the files
that are meant. -/
theorem discover_of_found (hd : d.Sound) (hwalk : d.Lists walk) {paths : List String}
    (hpaths : ∀ path ∈ paths, isStandardInput path = false ∧ d.spot? path ≠ none) :
    ∃ inputs, discover (d.lookBy walk) paths = .ok inputs ∧ d.Finds paths inputs := by
  induction paths with
  | nil => exact ⟨[], rfl, by simp, fun steps => ⟨fun h => by cases h <;> contradiction, by simp⟩⟩
  | cons path paths ih =>
    obtain ⟨⟨hdash, hspot⟩, hpaths⟩ := List.forall_mem_cons.mp hpaths
    obtain ⟨inputs, hinputs, hleads, hmeant⟩ :
        ∃ inputs, discover (d.lookBy walk) [path] = .ok inputs ∧ d.Finds [path] inputs := by
      rcases hwhere : d.spot? path with - | (base | file)
      · contradiction
      · exact discover_folder hd hwalk hdash hwhere
      · exact ⟨_, discover_file hdash hwhere⟩
    obtain ⟨others, hothers, hleads', hmeant'⟩ := ih hpaths
    refine ⟨inputs ++ others, discover_cons hinputs hothers, fun input hinput => ?_,
      fun steps => ?_⟩
    · exact (List.mem_append.mp hinput).elim (hleads input) (hleads' input)
    · rw [Meant.cons_iff, hmeant, hmeant']
      simp only [List.mem_append, or_and_right, exists_or]

end

end Disk

end TagDialect
