import TypeFinder.Proofs.Locator.Policies
import TypeFinder.Proofs.Locator.Pipeline
import TypeFinder.Proofs.Php.WellFormed
import TypeFinder.Report.Listing

/-! The reports on a search. The names of the types that were found are collected, listed line by line, counted and
    summed up file by file, and all of these are the same names. A listing can be read back, since no name that a
    source declares has a newline in it. -/

namespace TypeFinder

/-! ### Names keep to a line -/

namespace Php
variable {source name : String} {d : Declaration} {s : List Char} {fresh : Bool}

theorem newline_not_mem_of_isQualifiedFrom (h : isQualifiedFrom fresh s = true) : '\n' ∉ s := by
  induction s generalizing fresh with
  | nil => exact List.not_mem_nil
  | cons c s ih =>
    intro hmem
    rw [isQualifiedFrom] at h
    rcases List.mem_cons.mp hmem with rfl | hmem
    · cases fresh <;> simp [separator, isNameStart, isNameChar] at h
    · split at h <;> exact ih ((Bool.and_eq_true _ _).mp h).2 hmem

theorem ne_empty_of_isQualifiedName (h : isQualifiedName name = true) : name ≠ "" := by
  rintro rfl
  cases h

/-- Every type that a source declares has a qualified name. -/
theorem isQualifiedName_of_mem_declarations (h : d ∈ (Outline.ofSource source).declarations) :
    isQualifiedName d.name = true := by
  obtain ⟨j, t, u, hd⟩ := exists_declares_of_mem h
  have hu : isQualifiedName u.text = true := isQualifiedName_of_mem_tokens hd.mem_named hd.kind hd.simple
  rw [hd.name]
  cases hs : d.scope with
  | none => exact hu
  | some n =>
    obtain ⟨i, -, hn⟩ := hd.exists_namespaceAt? hs
    rw [qualifiedName, isQualifiedName_append_separator, isQualifiedName_of_namespaceAt? hn, hu, Bool.and_self]

end Php

namespace Report

theorem toList_lines (ls : List String) : (lines ls).toList = ls.flatMap fun l => l.toList ++ ['\n'] := by
  suffices h : ∀ out : String, (ls.foldl (fun out l => out ++ l ++ "\n") out).toList =
      out.toList ++ ls.flatMap fun l => l.toList ++ ['\n'] from h ""
  induction ls with
  | nil => simp
  | cons l ls ih =>
    intro out
    rw [List.foldl_cons, ih, List.flatMap_cons]
    simp

/-- Lines without a newline in them are read back, with what is behind the last newline, which is nothing. -/
theorem split_lines {ls : List String} (h : ∀ l ∈ ls, '\n' ∉ l.toList) :
    ((lines ls).split '\n').toList.map (·.copy) = ls ++ [""] := by
  have hsplit : (lines ls).toList.splitOn '\n' = ls.map String.toList ++ [[]] := by
    rw [toList_lines]
    induction ls with
    | nil => rfl
    | cons l ls ih =>
      obtain ⟨hl, hls⟩ := List.forall_mem_cons.mp h
      have happend : ∀ rest : List Char, l.toList ++ ['\n'] ++ rest = l.toList ++ '\n' :: rest := by simp
      rw [List.flatMap_cons, happend, List.splitOn_append_cons_self_of_not_mem hl, ih hls]
      rfl
  have hcopy : ((lines ls).split '\n').toList.map (·.copy) = _ := String.toList_split_char
  rw [hcopy, hsplit, List.map_append, List.map_map]
  simp [Function.comp_def]

theorem countClasses_eq (files : List SourceFile) : countClasses files = (files.flatMap (·.classes)).length := by
  suffices h : ∀ n, files.foldl (fun n f => n + f.classes.length) n = n + (files.flatMap (·.classes)).length by
    rw [countClasses, h, Nat.zero_add]
  induction files with
  | nil => exact fun n => rfl
  | cons f files ih =>
    intro n
    rw [List.foldl_cons, ih, List.flatMap_cons, List.length_append, Nat.add_assoc]

end Report

/-! ### What a search yields -/

section
variable {σ : Type} [FileSystem σ] {fs : σ} {l : Locator} {p : Path} {contents : ByteArray} {f : SourceFile}

theorem SourceFile.outline_of_ofContents? (h : SourceFile.ofContents? p contents = some f) :
    f.outline = Php.Outline.ofSource (Text.ofBytes contents) := by
  unfold SourceFile.ofContents? at h
  dsimp only at h
  split at h
  · obtain rfl := Option.some.inj h
    rfl
  · cases h

/-- A file that a search yields has the outline of a source text. -/
theorem Locator.exists_source_of_ok (h : .ok f ∈ l.items fs) : ∃ source, f.outline = Php.Outline.ofSource source := by
  rw [Locator.items_eq] at h
  obtain ⟨leaf, -, hmeet⟩ := List.mem_filterMap.mp (mem_of_mem_pass h)
  cases leaf with
  | error g => cases hmeet
  | ok p =>
    rw [meet?, look?] at hmeet
    split at hmeet
    · split at hmeet
      · cases hmeet
      · obtain ⟨g, hg, heq⟩ := Option.map_eq_some_iff.mp hmeet
        obtain rfl := Except.ok.inj heq
        exact ⟨_, SourceFile.outline_of_ofContents? hg⟩
    · cases hmeet

end

/-! ### The reports agree -/

namespace Report

/-- The reports on these files tell of the same names. -/
structure TellsOf (roots : List Path) (files : List SourceFile) (names : List String) : Prop where
  /-- The names are those that the files declare, one file after the other. -/
  collected : names = files.flatMap (·.classes)
  /-- Each line of the listing is a name, and nothing stands behind the last newline. -/
  listed : ((listing files).split '\n').toList.map (·.copy) = names ++ [""]
  qualified : ∀ n ∈ names, n ≠ "" ∧ Php.isQualifiedName n = true
  filesFound : (Summary.ofFiles roots files).filesFound = files.length
  classesFound : (Summary.ofFiles roots files).classesFound = names.length
  /-- There are as many names as declarations in the summary. -/
  declared : names.length = ((Summary.ofFiles roots files).files.flatMap (·.declarations)).length
  /-- The summary has the names of each file, in order, and they are those of its declarations. -/
  summed : (Summary.ofFiles roots files).files.map (·.classes) = files.map (·.classes)
  named : ∀ s ∈ (Summary.ofFiles roots files).files, s.classes = s.declarations.map (·.name)

theorem tellsOf {roots : List Path} {files : List SourceFile}
    (h : ∀ f ∈ files, ∃ source, f.outline = Php.Outline.ofSource source) :
    TellsOf roots files (files.flatMap (·.classes)) := by
  have hqualified : ∀ n ∈ files.flatMap (·.classes), n ≠ "" ∧ Php.isQualifiedName n = true := by
    intro n hn
    obtain ⟨f, hf, hn⟩ := List.mem_flatMap.mp hn
    obtain ⟨d, hd, rfl⟩ := List.mem_map.mp hn
    obtain ⟨source, hsource⟩ := h f hf
    have hd := Php.isQualifiedName_of_mem_declarations (hsource ▸ hd)
    exact ⟨Php.ne_empty_of_isQualifiedName hd, hd⟩
  have hlisted := split_lines fun n hn => Php.newline_not_mem_of_isQualifiedFrom (hqualified n hn).2
  have hnamed : ∀ s ∈ (Summary.ofFiles roots files).files, s.classes = s.declarations.map (·.name) := by
    intro s hs
    obtain ⟨f, -, rfl⟩ := List.mem_map.mp hs
    show f.outline.declarations.map (·.name) = List.map _ (f.outline.declarations.map _)
    rw [List.map_map]
    rfl
  have hdeclared : files.flatMap (·.classes) =
      ((Summary.ofFiles roots files).files.flatMap (·.declarations)).map (·.name) := by
    have hclasses : files.flatMap (·.classes) = (Summary.ofFiles roots files).files.flatMap (·.classes) :=
      (List.flatMap_map FileSummary.ofFile FileSummary.classes files).symm
    rw [hclasses, List.map_flatMap]
    exact List.flatMap_congr hnamed
  exact
    { collected := rfl
      listed := hlisted
      qualified := hqualified
      filesFound := rfl
      classesFound := countClasses_eq files
      declared := by rw [hdeclared, List.length_map]
      summed := List.map_map ..
      named := hnamed }

end Report

/-- A search without failures has names that are collected and that all reports tell of. Of a search with failures
    the first one is told. -/
theorem Locator.collectClasses_tellsOf {σ : Type} [FileSystem σ] (fs : σ) (l : Locator) (roots : List Path) :
    ((∀ i ∈ l.items fs, i.isOk = true) → ∃ files names, l.items fs = files.map .ok ∧ l.files fs = .ok files ∧
      l.collectClasses fs = .ok names ∧ Report.TellsOf roots files names) ∧
    ∀ (files : List SourceFile) (f : Failure) (rest : List Item),
      l.items fs = files.map .ok ++ .error f :: rest → l.collectClasses fs = .error f := by
  refine ⟨fun hok => ?_, fun files f rest hitems => ?_⟩
  · obtain ⟨files, hitems⟩ := exists_files hok
    have hfiles : l.files fs = .ok files := mapM_id_eq_ok_iff.mpr hitems
    refine ⟨files, _, hitems, hfiles, by rw [Locator.collectClasses, hfiles]; rfl, Report.tellsOf fun f hf => ?_⟩
    exact Locator.exists_source_of_ok (hitems ▸ List.mem_map_of_mem hf)
  · have hfiles : l.files fs = .error f := by rw [Locator.files, hitems, mapM_id_of_error]
    rw [Locator.collectClasses, hfiles]
    rfl

/-- Two files in the order of their paths, one of them with two names in a namespace; and a file that cannot be read,
    behind one that can be. -/
theorem Locator.collectClasses_tellsOf_memory :
    let m := ((Memory.empty.insert ⟨"/p/c.php"⟩ "<?php trait C".toUTF8).insert ⟨"/p/a.php"⟩
      "<?php namespace N; class A; enum É: int".toUTF8).insertUnreadable ⟨"/q/b.php"⟩
    let l : Locator := { roots := [⟨⟨"/p"⟩, .directory⟩] }
    let l' : Locator := { roots := [⟨⟨"/p/c.php"⟩, .file⟩, ⟨⟨"/q"⟩, .directory⟩, ⟨⟨"/p"⟩, .directory⟩] }
    (∃ files, l.collectClasses m = .ok ["N\\A", "N\\É", "C"] ∧
      Report.TellsOf [⟨"/p"⟩] files ["N\\A", "N\\É", "C"]) ∧
    l'.collectClasses m = .error ⟨⟨"/q/b.php"⟩, .permissionDenied⟩ := by
  intro m l l'
  obtain ⟨hok, -⟩ := Locator.collectClasses_tellsOf m l [⟨"/p"⟩]
  obtain ⟨-, hfails⟩ := Locator.collectClasses_tellsOf m l' []
  constructor
  · obtain ⟨files, names, hitems, -, hcollected, htells⟩ := hok (by rw [Locator.items_eq]; decide +kernel)
    have hfiles : files = (l.items m).filterMap Except.toOption := by
      rw [hitems, List.filterMap_map]
      exact (List.filterMap_some).symm
    have hnames : names = ["N\\A", "N\\É", "C"] := by
      rw [htells.collected, hfiles, Locator.items_eq]
      decide +kernel
    exact ⟨files, hnames ▸ hcollected, hnames ▸ htells⟩
  · refine hfails [⟨⟨"/p/c.php"⟩, ⟨[], [⟨"C", none, .traitType, 1⟩]⟩, rfl⟩] _ [] ?_
    rw [Locator.items_eq]
    decide +kernel

end TypeFinder
