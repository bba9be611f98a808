import TypeFinder.Command.Scan
import TypeFinder.Proofs.Disk.Walk
import TypeFinder.Proofs.Locator.Pipeline
import TypeFinder.Proofs.Locator.Policies

/-! The verdict of a scan. What a scan is to search depends on the word for the form, on the settings in force and on
    the paths; then it searches, and a failure may end that. Every error on this way has the one exit status, and
    nothing is written. Otherwise the exit status tells whether a type was found. -/

namespace TypeFinder
open Disk

/-! ### The settings in force -/

/-- The file holds these settings, right or not. -/
def Config.IsIn (d : Disk) (path : Path) (c : Config) : Prop :=
  ∃ contents text, d.read path = .ok contents ∧ String.fromUTF8? contents = some text ∧ Config.ofText? text = some c

/-- A file that holds no settings to search with. -/
inductive Config.Unusable (d : Disk) (path : Path) : Prop
  | unreadable {e : OsError} : d.read path = .error e → Unusable d path
  | notText {contents : ByteArray} : d.read path = .ok contents → String.fromUTF8? contents = none → Unusable d path
  | malformed {contents : ByteArray} {text : String} : d.read path = .ok contents →
      String.fromUTF8? contents = some text → Config.ofText? text = none → Unusable d path
  /-- An excluded path is no glob. -/
  | pattern {c : Config} {e : Glob.Error} : Config.IsIn d path c → Glob.ofTexts c.excludedPaths = .error e →
      Unusable d path
  /-- The globs are none to search with. -/
  | refused {c : Config} {e : Glob.Refusal} : Config.IsIn d path c → Glob.toSearch c.excludedPaths = .error e →
      Unusable d path

/-- The settings that a scan goes by: those of the file in force, or the usual ones where there is none. -/
def ScanArguments.GoesBy (d : Disk) (a : ScanArguments) (c : Config) : Prop :=
  match a.configFile? d with
  | none => c = {}
  | some path => c.IsIn d path

section
variable {d : Disk} {a : ScanArguments} {c : Config} {path : Path} {texts : List String} {excluded : List Glob}

theorem Glob.ofTexts_of_toSearch (h : Glob.toSearch texts = .ok excluded) : Glob.ofTexts texts = .ok excluded := by
  unfold Glob.toSearch at h
  obtain ⟨gs, hgs, h⟩ := bind_eq_ok h
  rw [eq_ok_of_mapError hgs]
  split at h
  · cases h
  · split at h
    · cases h
    · exact congrArg _ (Except.ok.inj h)

theorem Config.ofFile_eq_ok_iff : Config.ofFile d path = .ok c ↔ c.IsIn d path := by
  constructor
  · intro h
    obtain ⟨contents, hread, h⟩ := bind_eq_ok h
    split at h
    · cases h
    · rename_i text htext
      split at h
      · cases h
      · rename_i c' hc
        cases h
        exact ⟨contents, text, eq_ok_of_mapError hread, htext, hc⟩
  · rintro ⟨contents, text, hread, htext, hc⟩
    simp [Config.ofFile, hread, htext, hc, Except.mapError, bind, Except.bind]

theorem Config.exists_or_unusable (d : Disk) (path : Path) :
    (∃ (c : Config) (excluded : List Glob), c.IsIn d path ∧ Glob.toSearch c.excludedPaths = .ok excluded) ∨
      Config.Unusable d path := by
  cases hread : d.read path with
  | error e => exact Or.inr (.unreadable hread)
  | ok contents =>
    cases htext : String.fromUTF8? contents with
    | none => exact Or.inr (.notText hread htext)
    | some text =>
      cases hc : Config.ofText? text with
      | none => exact Or.inr (.malformed hread htext hc)
      | some c =>
        have hin : c.IsIn d path := ⟨contents, text, hread, htext, hc⟩
        cases hs : Glob.toSearch c.excludedPaths with
        | error e => exact Or.inr (.refused hin hs)
        | ok excluded => exact Or.inl ⟨c, excluded, hin, hs⟩

theorem Config.IsIn.unique {c' : Config} (h : c.IsIn d path) (h' : c'.IsIn d path) : c = c' := by
  rw [← Config.ofFile_eq_ok_iff] at h h'
  exact Except.ok.inj (h.symm.trans h')

theorem Config.IsIn.usable (h : c.IsIn d path) (hs : Glob.toSearch c.excludedPaths = .ok excluded) :
    ¬ Config.Unusable d path := by
  obtain ⟨contents, text, hread, htext, hc⟩ := h
  intro hun
  cases hun with
  | unreadable hread' => cases hread.symm.trans hread'
  | notText hread' htext' =>
    cases hread.symm.trans hread'
    cases htext.symm.trans htext'
  | malformed hread' htext' hc' =>
    cases hread.symm.trans hread'
    cases htext.symm.trans htext'
    cases hc.symm.trans hc'
  | pattern hin hp =>
    obtain rfl := hin.unique ⟨contents, text, hread, htext, hc⟩
    cases (Glob.ofTexts_of_toSearch hs).symm.trans hp
  | refused hin hp =>
    obtain rfl := hin.unique ⟨contents, text, hread, htext, hc⟩
    cases hs.symm.trans hp

/-- What the settings ask for, with what the arguments ask for on top. -/
def ScanArguments.options (a : ScanArguments) (c : Config) (excluded : List Glob) : SearchOptions where
  walk :=
    { followLinks := a.followLinks || c.shouldFollowLinks, skipHidden := c.shouldSkipHidden, excluded := excluded }
  onFailure := if a.skipIoErrors then .skip else c.policy

theorem ScanArguments.GoesBy.load (h : a.GoesBy d c) (hs : Glob.toSearch c.excludedPaths = .ok excluded) :
    Config.load d (a.configFile? d) = .ok c ∧ a.searchOptions c = .ok (a.options c excluded) := by
  have hoptions : a.searchOptions c = .ok (a.options c excluded) := by
    simp [ScanArguments.searchOptions, Config.searchOptions, hs, Except.mapError, Except.map, ScanArguments.options]
  refine ⟨?_, hoptions⟩
  unfold ScanArguments.GoesBy at h
  split at h
  · rename_i hnone
    rw [hnone, h]
    rfl
  · rename_i path hsome
    rw [hsome, Config.load, Config.ofFile_eq_ok_iff.mpr h]
    simp [bind, Except.bind, Config.validate, Glob.ofTexts_of_toSearch hs, Except.mapError, Except.map]

theorem ScanArguments.goesBy_of_load (h : Config.load d (a.configFile? d) = .ok c) : a.GoesBy d c := by
  unfold ScanArguments.GoesBy
  split
  · rename_i hnone
    rw [hnone] at h
    exact (Except.ok.inj h).symm
  · rename_i path hsome
    rw [hsome] at h
    obtain ⟨c', hc', h⟩ := bind_eq_ok h
    obtain ⟨-, -, rfl⟩ := eq_ok_of_map h
    exact Config.ofFile_eq_ok_iff.mp hc'

section
variable {entries : List (String × DiskNode)} {name : String}

/-- A file of settings is looked for among the entries of the current directory. -/
theorem Config.locate_fileName (hname : name ∈ fileNames) (hhere : d.nodeOf d.here = .directory entries) :
    IsName name ∧ (d.nodeOf d.here).entriesFor name = .ok entries ∧
      d.locate .target ((⟨"."⟩ : Path).join ⟨name⟩) = d.resolve .target linkLimit d.here [name] := by
  have hpath : ∀ name ∈ fileNames, IsName name ∧ ((⟨"."⟩ : Path).join ⟨name⟩).text.utf8ByteSize < pathLimit ∧
      ((⟨"."⟩ : Path).join ⟨name⟩).holdsZero = false ∧ ((⟨"."⟩ : Path).join ⟨name⟩).isAbsolute = false ∧
      ((⟨"."⟩ : Path).join ⟨name⟩).names = [".", name] := by
    decide +kernel
  obtain ⟨hname, hsize, hzero, hrelative, hnames⟩ := hpath name hname
  have hopen {s : String} (hs : s ≠ "") : (d.nodeOf d.here).entriesFor s = .ok entries := by
    rw [hhere, DiskNode.entriesFor_eq rfl hs]
    rfl
  exact ⟨hname, hopen hname.ne_empty, locate_dot hsize hzero hrelative hnames (hopen (by decide))⟩

theorem Config.lookup_fileName {contents : ByteArray} {access : Access} (hname : name ∈ fileNames)
    (hhere : d.nodeOf d.here = .directory entries) (hthere : d.node? d.here.location = some (.directory entries))
    (hfile : entries.lookup name = some (.file contents access)) :
    d.lookup .target ((⟨"."⟩ : Path).join ⟨name⟩) = .ok (.file contents access) := by
  obtain ⟨hname, hopen, hlocate⟩ := locate_fileName hname hhere
  have hbelow : (d.nodeOf d.here).below? [name] = some (.file contents access) := by
    rw [hhere, DiskNode.below?_cons, DiskNode.entries?, Option.bind_some, hfile]
    rfl
  rw [resolve_eq_of_below? (by simpa using hname) hbelow DiskNode.file_ne_link,
    DiskNode.reach_cons hname hopen hfile] at hlocate
  exact lookup_eq hlocate ((node?_concat hthere name).trans hfile)

theorem Config.fileIn?_eq_none (hhere : d.nodeOf d.here = .directory entries)
    (hnone : ∀ name ∈ fileNames, entries.lookup name = none) : fileIn? d ⟨"."⟩ = none := by
  refine List.find?_eq_none.mpr fun p hp => ?_
  obtain ⟨name, hmem, rfl⟩ := List.mem_map.mp hp
  obtain ⟨hname, hopen, hlocate⟩ := locate_fileName hmem hhere
  rw [resolve_missing hname hopen (hnone name hmem)] at hlocate
  simp [Disk.kind?, Disk.lookup, hlocate, bind, Except.bind]

end

/-! ### The roots -/

/-- One directory has the same roots whether it is searched by itself or as an entry. -/
theorem ScanArguments.rootsOf_source (hpaths : a.paths ≠ []) :
    Locator.rootsOf d (a.source d) = a.paths.mapM (Locator.resolveEntry d) := by
  have hentries : Locator.rootsOf d (.entries a.paths) = a.paths.mapM (Locator.resolveEntry d) :=
    Locator.rootsOf_entries hpaths
  unfold ScanArguments.source
  split
  · rename_i path hone
    split
    · rename_i hk
      have hkind : FileSystem.kind? d path = some .directory := hk
      rw [Locator.rootsOf, if_pos hkind, hone, List.mapM_cons, Locator.resolveEntry, hkind]
      cases Locator.resolve d path .directory <;> rfl
    · rw [← hone, hentries]
  · exact hentries

end

/-! ### The search -/

/-- What a scan searches and how, and the form of its report. -/
structure ScanArguments.Searches (d : Disk) (a : ScanArguments) (form : Report.Format) (o : SearchOptions)
    (roots : List Root) : Prop where
  form : Report.Format.ofWord? a.format = some form
  options : ∃ c excluded, a.GoesBy d c ∧ Glob.toSearch c.excludedPaths = .ok excluded ∧ o = a.options c excluded
  roots : List.Forall₂ d.Grounds a.paths roots

/-- Why a scan ends with an error. -/
inductive ScanArguments.Fails (d : Disk) (a : ScanArguments) : Prop
  | format : Report.Format.ofWord? a.format = none → Fails d a
  | config {path : Path} : a.configFile? d = some path → Config.Unusable d path → Fails d a
  | path {p : Path} : p ∈ a.paths → ¬ (d.kind? p = some .file ∨ d.kind? p = some .directory) → Fails d a
  /-- A path has no absolute form, although it may well lead to a file or a directory. -/
  | unresolved {p : Path} {e : OsError} : p ∈ a.paths → d.absolute p = .error e → Fails d a
  /-- The search aborts at a failure, and there is one. -/
  | failure {form : Report.Format} {o : SearchOptions} {roots : List Root} : a.Searches d form o roots →
      o.onFailure = .abort → failures (met d o.walk roots) ≠ [] → Fails d a

namespace ScanArguments

section
variable {d : Disk} {a : ScanArguments} {form : Report.Format} {o : SearchOptions} {roots : List Root} {l : Locator}

theorem Searches.locator (h : a.Searches d form o roots) (hpaths : a.paths ≠ []) :
    a.locator d = .ok (form, { roots, options := o }) := by
  obtain ⟨c, excluded, hc, hs, rfl⟩ := h.options
  obtain ⟨hload, hoptions⟩ := hc.load hs
  have hroots : Locator.rootsOf d (a.source d) = .ok roots := by
    rw [rootsOf_source hpaths]
    exact mapM_eq_ok_iff.mpr (h.roots.imp fun _ _ => Disk.resolveEntry_eq_ok_iff.mpr)
  rw [ScanArguments.locator, h.form]
  simp [hload, hoptions, Locator.ofSource, hroots, Except.mapError, Except.map, bind, Except.bind, pure, Except.pure]

theorem searches_of_locator (h : a.locator d = .ok (form, l)) (hpaths : a.paths ≠ []) :
    a.Searches d form l.options l.roots := by
  unfold ScanArguments.locator at h
  split at h
  · cases h
  rename_i form' hform
  obtain ⟨c, hload, h⟩ := bind_eq_ok h
  obtain ⟨o, hoptions, h⟩ := bind_eq_ok h
  obtain ⟨l', hl, h⟩ := bind_eq_ok h
  cases h
  obtain ⟨roots, hroots, rfl⟩ := eq_ok_of_map (eq_ok_of_mapError hl)
  rw [rootsOf_source hpaths] at hroots
  refine ⟨hform, ?_, (mapM_eq_ok_iff.mp hroots).imp fun _ _ => Disk.resolveEntry_eq_ok_iff.mp⟩
  -- The options are those of the settings that were read.
  have hc := goesBy_of_load (eq_ok_of_mapError hload)
  obtain ⟨_, hmade, -⟩ := eq_ok_of_map (eq_ok_of_mapError hoptions)
  obtain ⟨excluded, hs, -⟩ := eq_ok_of_map hmade
  have hs := eq_ok_of_mapError hs
  refine ⟨c, excluded, hc, hs, ?_⟩
  exact Except.ok.inj ((eq_ok_of_mapError hoptions).symm.trans (hc.load hs).2)

theorem exists_searches_or_fails (d : Disk) (a : ScanArguments) :
    (∃ form o roots, a.Searches d form o roots) ∨ a.Fails d := by
  cases hform : Report.Format.ofWord? a.format with
  | none => exact Or.inr (.format hform)
  | some form =>
    have hconfig : (∃ c excluded, a.GoesBy d c ∧ Glob.toSearch c.excludedPaths = .ok excluded) ∨ a.Fails d := by
      unfold GoesBy
      cases hf : a.configFile? d with
      | none => exact Or.inl ⟨{}, [], rfl, by decide⟩
      | some path =>
        rcases Config.exists_or_unusable d path with ⟨c, excluded, hin, hs⟩ | hun
        · exact Or.inl ⟨c, excluded, hin, hs⟩
        · exact Or.inr (.config hf hun)
    by_cases hkind : ∀ p ∈ a.paths, d.kind? p = some .file ∨ d.kind? p = some .directory
    · by_cases habsolute : ∀ p ∈ a.paths, ∃ q, d.absolute p = .ok q
      · obtain ⟨roots, hroots⟩ := Disk.exists_forall₂_grounds hkind habsolute
        rcases hconfig with ⟨c, excluded, hc, hs⟩ | hfails
        · exact Or.inl ⟨form, _, roots, hform, ⟨c, excluded, hc, hs, rfl⟩, hroots⟩
        · exact Or.inr hfails
      · obtain ⟨p, hp, hnone⟩ : ∃ p ∈ a.paths, ¬ ∃ q, d.absolute p = .ok q := by
          simpa only [not_forall, exists_prop] using habsolute
        cases hq : d.absolute p with
        | error e => exact Or.inr (.unresolved hp hq)
        | ok q => exact absurd ⟨q, hq⟩ hnone
    · obtain ⟨p, hp, hk⟩ : ∃ p ∈ a.paths, ¬ (d.kind? p = some .file ∨ d.kind? p = some .directory) := by
        simpa only [not_forall, exists_prop] using hkind
      exact Or.inr (.path hp hk)

theorem Searches.fails_iff (h : a.Searches d form o roots) (hpaths : a.paths ≠ []) :
    a.Fails d ↔ o.onFailure = .abort ∧ failures (met d o.walk roots) ≠ [] := by
  constructor
  · rintro (hform | ⟨hf, hun⟩ | ⟨hp, hk⟩ | ⟨hp, he⟩ | ⟨h', habort, hfail⟩)
    · cases hform.symm.trans h.form
    · obtain ⟨c, excluded, hc, hs, -⟩ := h.options
      rw [GoesBy, hf] at hc
      exact absurd hun (hc.usable hs)
    · obtain ⟨r, -, hr⟩ := exists_mem_of_forall₂ h.roots.flip hp
      exact absurd hr.found hk
    · obtain ⟨r, -, hr⟩ := exists_mem_of_forall₂ h.roots.flip hp
      cases hr.path.symm.trans he
    · cases (h.locator hpaths).symm.trans (h'.locator hpaths)
      exact ⟨habort, hfail⟩
  · rintro ⟨habort, hfail⟩
    exact .failure h habort hfail

end
end ScanArguments

/-! ### What is found -/

/-- What is known of a file that was found. -/
def SourceFile.description (f : SourceFile) : Path × Php.Outline := (f.path, f.outline)

namespace Locator
variable {d : Disk} {l : Locator} {files : List SourceFile}

theorem files_of_failure (habort : l.options.onFailure = .abort) (h : failures (met d l.options.walk l.roots) ≠ []) :
    ∃ e, l.files d = .error e := by
  cases hfiles : l.files d with
  | error e => exact ⟨e, rfl⟩
  | ok files =>
    obtain ⟨f, hf⟩ := exists_error_mem_upToFailure h
    have hitems : l.items d = upToFailure (met d l.options.walk l.roots) := by
      rw [Locator.items_eq, habort]
      rfl
    rw [← hitems, mapM_id_eq_ok_iff.mp hfiles] at hf
    obtain ⟨_, -, hf⟩ := List.mem_map.mp hf
    cases hf

/-- The files that a search finds are those of its roots that can be read and declare types, in order. -/
theorem files_of_not_failure
    (h : ¬ (l.options.onFailure = .abort ∧ failures (met d l.options.walk l.roots) ≠ [])) :
    ∃ files, l.files d = .ok files ∧
      files.map SourceFile.description = described d (l.roots.flatMap (Root.files d l.options.walk)) := by
  have hitems : l.items d = (met d l.options.walk l.roots).filter (·.isOk) := by
    rw [Locator.items_eq, Policy.pass_eq h]
  obtain ⟨files, hfiles⟩ : ∃ files : List SourceFile, l.items d = files.map .ok := by
    refine exists_files fun i hi => ?_
    rw [hitems] at hi
    exact (List.mem_filter.mp hi).2
  refine ⟨files, mapM_id_eq_ok_iff.mpr hfiles, ?_⟩
  -- The search that passes failures over yields the same, and it is known what that is.
  have hsame : ({ l with options := { l.options with onFailure := .skip } } : Locator).items d = l.items d := by
    rw [hitems, Locator.items_eq]
    rfl
  have hdesc : (l.items d).map Item.description =
      (described d (l.roots.flatMap (Root.files d l.options.walk))).map .ok := by
    rw [← hsame]
    exact description_items rfl
  have hok : Function.Injective (Except.ok : Path × Php.Outline → Except Failure (Path × Php.Outline)) :=
    fun _ _ => Except.ok.inj
  refine List.map_injective_iff.mpr hok ?_
  rw [← hdesc, hfiles, List.map_map, List.map_map]
  rfl

end Locator

/-! ### The verdict -/

theorem Report.lines_eq (ls : List String) : Report.lines ls = String.join (ls.map (· ++ "\n")) := by
  rw [Report.lines, String.join, List.foldl_map]
  simp only [String.append_assoc]

namespace ScanArguments

/-- What is found where a scan searches. -/
def found (d : Disk) (o : SearchOptions) (roots : List Root) : List (Path × Php.Outline) :=
  described d (roots.flatMap (Root.files d o.walk))

section
variable {d : Disk} {a : ScanArguments}

theorem files_of_fails (h : a.Fails d) (hpaths : a.paths ≠ []) : ∃ e, a.files d = .error e := by
  unfold ScanArguments.files
  cases hl : a.locator d with
  | error e => exact ⟨e, rfl⟩
  | ok fl =>
    obtain ⟨habort, hfail⟩ := ((searches_of_locator hl hpaths).fails_iff hpaths).mp h
    obtain ⟨e, he⟩ := Locator.files_of_failure habort hfail
    exact ⟨.failure e, by simp [he, Except.mapError, bind, Except.bind]⟩

theorem run_of_fails (h : a.Fails d) (hpaths : a.paths ≠ []) (inColor : Bool) :
    (a.run d inColor).exit = 2 ∧ (a.run d inColor).out = "" := by
  obtain ⟨e, he⟩ := files_of_fails h hpaths
  rw [ScanArguments.run, he]
  exact ⟨rfl, rfl⟩

theorem exists_files_of_not_fails (h : ¬ a.Fails d) (hpaths : a.paths ≠ []) :
    ∃ form o roots files, a.Searches d form o roots ∧ a.files d = .ok (form, files) ∧
      files.map SourceFile.description = found d o roots := by
  rcases exists_searches_or_fails d a with ⟨form, o, roots, hs⟩ | hf
  · have hnot := mt (hs.fails_iff hpaths).mpr h
    obtain ⟨files, hfiles, hfound⟩ := Locator.files_of_not_failure (l := { roots, options := o }) hnot
    refine ⟨form, o, roots, files, hs, ?_, hfound⟩
    rw [ScanArguments.files, hs.locator hpaths]
    simp [hfiles, Except.mapError, bind, Except.bind, pure, Except.pure]
  · exact absurd hf h

end

/-- The exit status of a scan of one path or more is a verdict. It is 2 where there is a reason to fail, and then
    nothing is written. Otherwise it is 0 or 1 as a type was found or not, and a list is the names of all types that
    were found, in order. -/
theorem run_verdict (d : Disk) (inColor : Bool) (a : ScanArguments) (hpaths : a.paths ≠ []) :
    ((a.run d inColor).exit = 2 ↔ a.Fails d) ∧
      (a.Fails d → (a.run d inColor).out = "") ∧
      (¬ a.Fails d → ∃ form o roots, a.Searches d form o roots ∧
        (a.run d inColor).exit = (if found d o roots = [] then 1 else 0) ∧
        (form = .list →
          (a.run d inColor).out =
            String.join ((found d o roots).flatMap fun (_, outline) => outline.classes.map (· ++ "\n")))) := by
  by_cases h : a.Fails d
  · obtain ⟨hexit, hout⟩ := run_of_fails h hpaths inColor
    exact ⟨iff_of_true hexit h, fun _ => hout, fun hn => absurd h hn⟩
  · obtain ⟨form, o, roots, files, hs, hfiles, hfound⟩ := exists_files_of_not_fails h hpaths
    have hexit : (a.run d inColor).exit = if found d o roots = [] then 1 else 0 := by
      rw [ScanArguments.run, hfiles, ← hfound]
      cases files <;> rfl
    have hne : (a.run d inColor).exit ≠ 2 := by
      rw [hexit]
      split <;> decide
    refine ⟨iff_of_false hne h, fun hf => absurd hf h, fun _ => ⟨form, o, roots, hs, hexit, ?_⟩⟩
    rintro rfl
    rw [ScanArguments.run, hfiles, ← hfound]
    show Report.lines (files.flatMap SourceFile.classes) = _
    rw [Report.lines_eq, List.map_flatMap, List.flatMap_map]
    rfl

/-- In the current directory the settings say to pass failures over, and in another file to abort. Of what is scanned,
    one file is readable, another one refuses to be read, and a directory refuses to be listed. -/
theorem run_verdict_refused :
    let d : Disk :=
      ⟨.directory [("w", .directory [
        ("a.php", .file "<?php namespace N; class A;".toUTF8),
        ("b.php", .file "<?php class B;".toUTF8 { read := .error .permissionDenied }),
        ("classloc.yaml", .file "on_io_error: skip\n".toUTF8),
        ("s", .directory [] { read := .error .permissionDenied }),
        ("strict.yaml", .file "on_io_error: abort\n".toUTF8)])], ["w"]⟩
    let a : ScanArguments := { paths := [⟨"/w/a.php"⟩, ⟨"/w/b.php"⟩, ⟨"/w/s"⟩], format := "list" }
    let strict : ScanArguments := { a with config := some ⟨"/w/strict.yaml"⟩ }
    ((a.run d false).exit = 0 ∧ (a.run d false).out = "N\\A\n") ∧
      ((strict.run d false).exit = 2 ∧ (strict.run d false).out = "") ∧
      ((({ strict with skipIoErrors := true } : ScanArguments).run d false).exit = 0 ∧
        (({ strict with skipIoErrors := true } : ScanArguments).run d false).out = "N\\A\n") ∧
      (({ a with paths := [⟨"/w/b.php"⟩, ⟨"/w/s"⟩] } : ScanArguments).run d false).exit = 1 := by
  intro d a strict
  -- All that is there can be gone to by its path.
  have hnamed : d.IsNamed [] := ⟨by decide +kernel, by decide +kernel, by decide +kernel⟩
  have hreach {x : Location} {n : DiskNode} (hsize : (pathOf x).text.utf8ByteSize < pathLimit)
      (hn : d.root.reach x = .ok n) : d.reach x = .ok n := (if_pos hsize).trans hn
  have hpath : pathOf ["w", "a.php"] = ⟨"/w/a.php"⟩ ∧ pathOf ["w", "b.php"] = ⟨"/w/b.php"⟩ ∧
      pathOf ["w", "s"] = ⟨"/w/s"⟩ ∧ pathOf ["w", "strict.yaml"] = ⟨"/w/strict.yaml"⟩ := by
    decide +kernel
  obtain ⟨hpa, hpb, hps, hpstrict⟩ := hpath
  have ha : d.reach ["w", "a.php"] = .ok (.file "<?php namespace N; class A;".toUTF8) := hreach (by decide +kernel) rfl
  have hb : d.reach ["w", "b.php"] = .ok (.file "<?php class B;".toUTF8 { read := .error .permissionDenied }) :=
    hreach (by decide +kernel) rfl
  have hs : d.reach ["w", "s"] = .ok (.directory [] { read := .error .permissionDenied }) :=
    hreach (by decide +kernel) rfl
  -- The settings.
  have hstrict : strict.GoesBy d { onIoError := some .abort } := by
    have hfile : d.reach ["w", "strict.yaml"] = .ok (.file "on_io_error: abort\n".toUTF8) :=
      hreach (by decide +kernel) rfl
    have hread : d.read ⟨"/w/strict.yaml"⟩ = .ok "on_io_error: abort\n".toUTF8 :=
      hpstrict ▸ hnamed.read_pathOf List.nil_prefix hfile
    exact ⟨_, "on_io_error: abort\n", hread, by decide +kernel, by decide +kernel⟩
  have hloose {paths : List Path} : ({ a with paths } : ScanArguments).GoesBy d { onIoError := some .skip } := by
    have hfile : d.lookup .target ((⟨"."⟩ : Path).join ⟨"classloc.yaml"⟩) = .ok (.file "on_io_error: skip\n".toUTF8) :=
      Config.lookup_fileName (by decide) rfl rfl rfl
    have hkind : d.kind? ((⟨"."⟩ : Path).join ⟨"classloc.yaml"⟩) = some .file := by
      rw [Disk.kind?, hfile]
      rfl
    have hconfig : Config.fileIn? d ⟨"."⟩ = some ((⟨"."⟩ : Path).join ⟨"classloc.yaml"⟩) := by
      simp [Config.fileIn?, Config.fileNames, hkind]
    rw [GoesBy, ScanArguments.configFile?, hconfig]
    exact ⟨_, "on_io_error: skip\n", read_of_lookup hfile, by decide +kernel, by decide +kernel⟩
  -- The roots.
  have hga : d.Grounds ⟨"/w/a.php"⟩ ⟨⟨"/w/a.php"⟩, .file⟩ := hpa ▸ hnamed.grounds List.nil_prefix ha (.inl rfl)
  have hgb : d.Grounds ⟨"/w/b.php"⟩ ⟨⟨"/w/b.php"⟩, .file⟩ := hpb ▸ hnamed.grounds List.nil_prefix hb (.inl rfl)
  have hgs : d.Grounds ⟨"/w/s"⟩ ⟨⟨"/w/s"⟩, .directory⟩ := hps ▸ hnamed.grounds List.nil_prefix hs (.inr rfl)
  -- What is met there.
  have hreada : FileSystem.read d ⟨"/w/a.php"⟩ = .ok "<?php namespace N; class A;".toUTF8 :=
    congrArg (Except.mapError IoError.os) (hpa ▸ hnamed.read_pathOf List.nil_prefix ha)
  have hreadb : FileSystem.read d ⟨"/w/b.php"⟩ = .error (.os .permissionDenied) :=
    congrArg (Except.mapError IoError.os) (hpb ▸ hnamed.read_pathOf List.nil_prefix hb)
  have hleaves : (⟨⟨"/w/s"⟩, .directory⟩ : Root).leaves d {} =
      [.error ⟨⟨"/w/s"⟩, .refused ⟨"/w/s"⟩ .permissionDenied⟩] :=
    DiskWalk.leaves_of_unlisted (hps ▸ hnamed.lookup List.nil_prefix hs DiskNode.directory_ne_link)
      (hps ▸ hnamed.list_pathOf List.nil_prefix hs) (by decide +kernel)
  have houtline : Php.Outline.ofSource (Text.ofBytes "<?php namespace N; class A;".toUTF8) =
      ⟨["N"], [⟨"N\\A", some "N", .classType, 1⟩]⟩ := by
    decide +kernel
  have hmet {roots : List Root} (hr : ⟨⟨"/w/s"⟩, .directory⟩ ∈ roots) : failures (met d {} roots) ≠ [] :=
    failures_ne_nil_of_mem (error_mem_met_iff.mpr ⟨_, hr, .inl (hleaves ▸ List.mem_singleton_self _)⟩)
  have hnothing : found d {} [⟨⟨"/w/b.php"⟩, .file⟩, ⟨⟨"/w/s"⟩, .directory⟩] = [] := by
    have hfiles : [⟨⟨"/w/b.php"⟩, .file⟩, ⟨⟨"/w/s"⟩, .directory⟩].flatMap (Root.files d {}) = [⟨"/w/b.php"⟩] := by
      simp [files_eq, hleaves, Root.leaves_of_ne, Except.toOption]
    exact (congrArg _ hfiles).trans (described_of_error hreadb)
  have hfound : found d {} [⟨⟨"/w/a.php"⟩, .file⟩, ⟨⟨"/w/b.php"⟩, .file⟩, ⟨⟨"/w/s"⟩, .directory⟩] =
      [(⟨"/w/a.php"⟩, ⟨["N"], [⟨"N\\A", some "N", .classType, 1⟩]⟩)] := by
    have hcons (roots : List Root) : found d {} (⟨⟨"/w/a.php"⟩, .file⟩ :: roots) =
        described d [⟨"/w/a.php"⟩] ++ found d {} roots := described_cons
    rw [hcons, hnothing, List.append_nil, described_of_ok (by decide +kernel) hreada, houtline]
    rfl
  -- The verdicts.
  have hsearches {b : ScanArguments} {c : Config} {roots : List Root} (hformat : b.format = "list") (hc : b.GoesBy d c)
      (hexcluded : c.excludedPaths = []) (hroots : List.Forall₂ d.Grounds b.paths roots) :
      b.Searches d .list (b.options c []) roots :=
    ⟨by rw [hformat]; decide +kernel, ⟨c, [], hc, by rw [hexcluded]; decide, rfl⟩, hroots⟩
  have hpasses {b : ScanArguments} {o : SearchOptions} {roots : List Root} {fs : List (Path × Php.Outline)}
      (hs : b.Searches d .list o roots) (hpaths : b.paths ≠ []) (hskip : o.onFailure = .skip)
      (hfs : found d o roots = fs) :
      (b.run d false).exit = (if fs = [] then 1 else 0) ∧
        (b.run d false).out = String.join (fs.flatMap fun (_, outline) => outline.classes.map (· ++ "\n")) := by
    have hnot : ¬ b.Fails d := fun h => by cases ((hs.fails_iff hpaths).mp h).1.symm.trans hskip
    obtain ⟨form, o', roots', hs', hexit, hout⟩ := (run_verdict d false b hpaths).2.2 hnot
    cases (hs.locator hpaths).symm.trans (hs'.locator hpaths)
    exact hfs ▸ ⟨hexit, hout rfl⟩
  have hall := List.Forall₂.cons hga (.cons hgb (.cons hgs .nil))
  have hfails : strict.Fails d :=
    ((hsearches rfl hstrict rfl hall).fails_iff (List.cons_ne_nil _ _)).mpr ⟨rfl, hmet (by simp)⟩
  have hloud := run_verdict d false strict (List.cons_ne_nil _ _)
  exact ⟨hpasses (hsearches rfl hloose rfl hall) (List.cons_ne_nil _ _) rfl hfound,
    ⟨hloud.1.mpr hfails, hloud.2.1 hfails⟩,
    hpasses (hsearches (b := { strict with skipIoErrors := true }) rfl hstrict rfl hall) (List.cons_ne_nil _ _) rfl
      hfound,
    (hpasses (hsearches rfl hloose rfl (.cons hgb (.cons hgs .nil))) (List.cons_ne_nil _ _) rfl hnothing).1⟩

end ScanArguments

/-! ### Paths that lead too far -/

/-- The directories with these names, one in the other, around a node. -/
def DiskNode.within (n : DiskNode) : Location → DiskNode
  | [] => n
  | name :: rest => .directory [(name, n.within rest)]

theorem DiskNode.reach_within {n : DiskNode} {x : Location} (hx : ∀ s ∈ x, IsName s) :
    (n.within x).reach x = .ok n := by
  induction x with
  | nil => rfl
  | cons name rest ih =>
    obtain ⟨hname, hrest⟩ := List.forall_mem_cons.mp hx
    rw [within, reach_cons hname (entriesFor_eq rfl hname.ne_empty) List.lookup_cons_self]
    exact ih hrest

namespace ScanArguments

section
variable {d : Disk} {a : ScanArguments} {p : Path} {l : Location}

/-- A path that leads to a location with a long path is an error, unless it starts from such a location. -/
theorem exit_of_far (hp : p ∈ a.paths) (hl : d.locate .target p = .ok l)
    (hfar : pathLimit ≤ (pathOf l).text.utf8ByteSize)
    (hstart : p.isAbsolute = true ∨ (pathOf d.here.location).text.utf8ByteSize < pathLimit) (inColor : Bool) :
    (a.run d inColor).exit = 2 := by
  obtain ⟨e, he⟩ := exists_error_of_far hl hfar hstart
  exact (run_of_fails (.unresolved hp he) (List.ne_nil_of_mem hp) inColor).1

end

/-- A scan of a file may end with an error although nothing of the search fails: the file may be so deep in the tree
    that its path has no absolute form. -/
theorem not_fails_by_kind_only : ¬ ∀ (d : Disk) (inColor : Bool) (a : ScanArguments), a.paths ≠ [] →
    ((a.run d inColor).exit = 2 ↔
      Report.Format.ofWord? a.format = none ∨
      (∃ path, a.configFile? d = some path ∧ Config.Unusable d path) ∨
      (∃ p ∈ a.paths, ¬ (d.kind? p = some .file ∨ d.kind? p = some .directory)) ∨
      ∃ form o roots, a.Searches d form o roots ∧ o.onFailure = .abort ∧ failures (met d o.walk roots) ≠ []) := by
  intro h
  let far : String := String.ofList (List.replicate 250 'd')
  let above : Location := far :: List.replicate 13 far
  let below : Location := List.replicate 3 far ++ ["a.php"]
  let n : DiskNode := .file "<?php class A {}".toUTF8
  let d : Disk := ⟨.directory [("l", .link (pathOf above)), (far, n.within (List.replicate 13 far ++ below))], []⟩
  let a : ScanArguments := { paths := [pathOf ("l" :: below)], format := "list", skipIoErrors := true }
  have hchar {c : Char} (hc : c ≠ 'd') : c ∉ far.toList := by
    rw [String.toList_ofList]
    exact fun h => hc (List.eq_of_mem_replicate h)
  have hfar : IsName far :=
    ⟨by decide +kernel, by decide +kernel, hchar (by decide), hchar (by decide), by decide +kernel⟩
  have hx : ∀ s ∈ above ++ below, IsName s := by
    intro s hs
    obtain rfl | rfl : s = far ∨ s = "a.php" := by simpa [above, below] using hs
    · exact hfar
    · decide
  have hreach : d.root.reach (above ++ below) = .ok n := by
    have hlookup : (far == "l") = false := by decide +kernel
    refine (DiskNode.reach_cons hfar (DiskNode.entriesFor_eq rfl hfar.ne_empty) ?_ _).trans
      (DiskNode.reach_within fun s hs => hx s (List.mem_cons_of_mem _ hs))
    rw [List.lookup_cons, hlookup]
    exact List.lookup_cons_self
  have hlocate : d.locate .target (pathOf ("l" :: below)) = .ok (above ++ below) :=
    locate_link (by decide) rfl rfl (List.cons_ne_nil _ _) hx hreach DiskNode.file_ne_link (by decide +kernel)
  have hkind : d.kind? (pathOf ("l" :: below)) = some .file := by
    rw [Disk.kind?, lookup_eq hlocate (DiskNode.below?_of_reach hreach)]
    rfl
  have hconfig : a.configFile? d = none := by
    have hnames : ∀ name ∈ Config.fileNames, (name == "l") = false ∧ (name == far) = false := by decide +kernel
    refine Config.fileIn?_eq_none rfl fun name hname => ?_
    rw [List.lookup_cons, (hnames name hname).1, List.lookup_cons, (hnames name hname).2]
    rfl
  have hexit : (a.run d false).exit = 2 :=
    exit_of_far List.mem_cons_self hlocate (by decide +kernel) (.inl (isAbsolute_pathOf _)) false
  rcases (h d false a (List.cons_ne_nil _ _)).mp hexit with
    hform | ⟨path, hpath, -⟩ | ⟨p, hp, hk⟩ | ⟨form, o, roots, hs, habort, -⟩
  · exact absurd hform (by decide +kernel)
  · cases hconfig.symm.trans hpath
  · obtain rfl := List.mem_singleton.mp hp
    exact hk (.inl hkind)
  · obtain ⟨c, excluded, -, -, rfl⟩ := hs.options
    cases habort

end ScanArguments
end TypeFinder
