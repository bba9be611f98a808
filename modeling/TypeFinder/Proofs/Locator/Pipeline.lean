import TypeFinder.Proofs.Locator.Roots
import TypeFinder.Proofs.Locator.Traversal
import TypeFinder.Proofs.Memory.Walk

/-! The search as a pipeline. A search that passes failures over yields what the files of its roots hold, one after the
    other: those that are source files, can be read and declare types. -/

namespace TypeFinder

/-! ### The pipeline -/

section
variable {σ : Type} [FileSystem σ]

/-- The files that a root stands for: itself, or those that the walk from it visits. -/
def Root.files (fs : σ) (o : WalkOptions) (r : Root) : List Path :=
  if r.kind = .directory then
    (FileSystem.walked fs (FileSystem.walk fs r.path o)).filterMap fun
      | .ok e => if e.kind = .file then some e.path else none
      | .error _ => none
  else [r.path]

/-- The source files among the paths that can be read and declare types, with what they declare. -/
def described (fs : σ) (paths : List Path) : List (Path × Php.Outline) :=
  (((paths.filter Path.isSource).filterMap fun p =>
      (FileSystem.read fs p).toOption.map fun contents => (p, Text.ofBytes contents)).map fun (p, text) =>
    (p, Php.Outline.ofSource text)).filter fun (_, outline) => !outline.isEmpty

/-- A descriptor is a path and what the file declares. -/
def Item.description (i : Item) : Except Failure (Path × Php.Outline) := i.map fun f => (f.path, f.outline)

variable {fs : σ} {p : Path} {paths : List Path}

theorem description_ofContents? (p : Path) (contents : ByteArray) :
    (((SourceFile.ofContents? p contents).map Except.ok).map Item.description).toList =
      ([(p, Php.Outline.ofSource (Text.ofBytes contents))].filter fun (_, outline) => !outline.isEmpty).map
        Except.ok := by
  cases h : (Php.Outline.ofSource (Text.ofBytes contents)).isEmpty with
  | true => simp [SourceFile.ofContents?, h]
  | false => simp [SourceFile.ofContents?, h, Item.description, Except.map]

/-- What is seen of one file when failures are passed over. -/
theorem description_look? :
    ((look? fs p).toList.filter (·.isOk)).map Item.description = (described fs [p]).map .ok := by
  unfold look? described
  cases hsource : p.isSource with
  | false => simp [hsource]
  | true =>
    cases hread : FileSystem.read fs p with
    | error cause => simp [hsource, hread, Except.isOk, Except.toBool, Except.toOption]
    | ok contents =>
      have hdesc := description_ofContents? p contents
      cases hf : SourceFile.ofContents? p contents with
      | none => simpa [hsource, hread, hf, Except.toOption] using hdesc
      | some f => simpa [hsource, hread, hf, Except.isOk, Except.toBool, Except.toOption] using hdesc

theorem described_of_error {cause : IoError} (h : FileSystem.read fs p = .error cause) : described fs [p] = [] := by
  cases hsource : p.isSource <;> simp [described, hsource, h, Except.toOption]

theorem described_of_ok {contents : ByteArray} (hsource : p.isSource = true) (h : FileSystem.read fs p = .ok contents) :
    described fs [p] = [(p, Php.Outline.ofSource (Text.ofBytes contents))].filter fun (_, outline) => !outline.isEmpty := by
  simp [described, hsource, h, Except.toOption]

theorem described_cons : described fs (p :: paths) = described fs [p] ++ described fs paths := by
  rw [← List.singleton_append]
  simp only [described, List.filter_append, List.filterMap_append, List.map_append]

theorem description_met (ls : List (Except Failure Path)) :
    (((ls.filterMap (meet? fs)).filter (·.isOk)).map Item.description) =
      (described fs (ls.filterMap Except.toOption)).map .ok := by
  induction ls with
  | nil => rfl
  | cons leaf ls ih =>
    have hcons : (leaf :: ls).filterMap (meet? fs) = (meet? fs leaf).toList ++ ls.filterMap (meet? fs) := by
      cases h : meet? fs leaf <;> simp [h]
    rw [hcons, List.filter_append, List.map_append, ih]
    cases leaf with
    | error f => rfl
    | ok p =>
      have hfiles : (Except.ok p :: ls).filterMap Except.toOption = p :: ls.filterMap Except.toOption := rfl
      rw [hfiles, described_cons, List.map_append, ← description_look?]
      rfl

theorem files_eq (fs : σ) (o : WalkOptions) (r : Root) : r.files fs o = (r.leaves fs o).filterMap Except.toOption := by
  unfold Root.files Root.leaves
  split
  · rw [leaves, List.filterMap_filterMap]
    congr 1
    funext step
    cases step with
    | error f => rfl
    | ok e => by_cases h : e.kind = .file <;> simp [leaf?, h, Except.toOption]
  · rfl

/-- The search that passes failures over is the pipeline. -/
theorem description_items {l : Locator} (hskip : l.options.onFailure = .skip) :
    (l.items fs).map Item.description =
      (described fs (l.roots.flatMap (Root.files fs l.options.walk))).map .ok := by
  have hfiles : l.roots.flatMap (Root.files fs l.options.walk) =
      (l.roots.flatMap (Root.leaves fs l.options.walk)).filterMap Except.toOption := by
    rw [List.filterMap_flatMap]
    congr 1
    funext r
    exact files_eq fs _ r
  rw [Locator.items_eq, hskip, hfiles, ← description_met]
  rfl

theorem mem_of_mem_described {outline : Php.Outline} (h : (p, outline) ∈ described fs paths) :
    p ∈ paths ∧ p.isSource = true := by
  simp only [described, List.mem_filter, List.mem_map, List.mem_filterMap, Option.map_eq_some_iff] at h
  obtain ⟨⟨⟨q, text⟩, ⟨q', ⟨hq, hsource⟩, contents, -, heq⟩, hpair⟩, -⟩ := h
  cases heq
  cases hpair
  exact ⟨hq, hsource⟩

end

/-! ### All files, or a failure -/

section
variable {items : List Item} {files : List SourceFile}

theorem mapM_id_eq_ok_iff : items.mapM id = .ok files ↔ items = files.map .ok := by
  constructor
  · intro h
    have hall := mapM_eq_ok_iff.mp h
    clear h
    induction hall with
    | nil => rfl
    | cons hi _ ih => rw [List.map_cons, ← ih, ← hi, id]
  · rintro rfl
    exact mapM_eq_ok_iff.mpr (List.forall₂_map_left_iff.mpr (List.forall₂_same.mpr fun _ _ => rfl))

theorem exists_files (h : ∀ i ∈ items, i.isOk = true) : ∃ files : List SourceFile, items = files.map .ok := by
  induction items with
  | nil => exact ⟨[], rfl⟩
  | cons i items ih =>
    obtain ⟨hi, hitems⟩ := List.forall_mem_cons.mp h
    obtain ⟨files, rfl⟩ := ih hitems
    cases i with
    | ok f => exact ⟨f :: files, rfl⟩
    | error f => cases hi

theorem mapM_id_of_error {f : Failure} {rest : List Item} (files : List SourceFile) :
    (files.map .ok ++ .error f :: rest : List Item).mapM id = .error f := by
  induction files with
  | nil => rfl
  | cons g files ih =>
    rw [List.map_cons, List.cons_append, List.mapM_cons, ih]
    rfl

end

/-! ### The files of a root -/

theorem fileName_of_isSource {p : Path} (h : p.isSource = true) :
    p.components.getLast? = some (.name (p.fileName?.getD "")) := by
  have hname : p.fileName?.isSome = true := by
    rw [Path.isSource, beq_iff_eq, Path.extension?] at h
    cases hn : p.fileName? with
    | none =>
      rw [hn] at h
      cases h
    | some name => rfl
  unfold Path.fileName? at hname ⊢
  split at hname
  · rename_i name hlast
    rw [hlast]
    rfl
  · cases hname

namespace Memory
variable {m : Memory} {p : Path} {r : Root} {source : Source} {roots : List Root}

theorem walked_eq (m : Memory) : ∀ w : List (Except Failure Entry), FileSystem.walked m w = w
  | [] => FileSystem.walked_of_none rfl
  | _ :: w => (FileSystem.walked_of_some rfl).trans (congrArg _ (walked_eq m w))

theorem leaves_directory (m : Memory) (p : Path) (o : WalkOptions) :
    (⟨p, .directory⟩ : Root).leaves m o = (m.walk p o).filterMap leaf? :=
  congrArg (List.filterMap leaf?) (walked_eq m _)

/-- A walk stays under its root. -/
theorem isUnder_of_mem_walk {root : Path} {o : WalkOptions} {e : Entry} (h : .ok e ∈ m.walk root o) :
    e.path.isUnder root = true := by
  cases hk : m.kind? root with
  | none => simp [walk, hk] at h
  | some kind =>
    rcases eq_of_ok_mem_walk hk h with rfl | ⟨p, hp, rfl⟩
    · exact Path.isUnder_of_same (Path.same_self root)
    · exact (isBelow_of_mem_below (mem_below_of_mem_visited hp)).1.1

/-- The files of a root are under it. -/
theorem isUnder_of_mem_files {o : WalkOptions} (h : p ∈ r.files m o) : p.isUnder r.path = true := by
  unfold Root.files at h
  split at h
  · obtain ⟨step, hstep, hp⟩ := List.mem_filterMap.mp h
    have hwalked : FileSystem.walked m (FileSystem.walk m r.path o) = m.walk r.path o := walked_eq m _
    rw [hwalked] at hstep
    cases step with
    | error f => cases hp
    | ok e =>
      simp only [Option.ite_none_right_eq_some, Option.some.injEq] at hp
      exact hp.2 ▸ isUnder_of_mem_walk hstep
  · obtain rfl := List.mem_singleton.mp h
    exact Path.isUnder_of_same (Path.same_self _)

/-! ### The search in memory -/

/-- The items are what the pipeline makes of the roots, which are those of the source. -/
structure IsPipeline (m : Memory) (source : Source) (o : WalkOptions) (roots : List Root) (items : List Item) :
    Prop where
  /-- The roots stand in the order in which they were given, as files or directories. -/
  grounds : List.Forall₂ m.Grounds source.paths roots
  /-- Every file of the roots is read and described once, in order, unless it is filtered out. -/
  descriptions : items.map Item.description = (described m (roots.flatMap (Root.files m o))).map .ok
  rooted : ∀ f, .ok f ∈ items → ∃ r ∈ roots, f.path ∈ r.files m o ∧ f.path.isUnder r.path = true
  absolute : ∀ f, .ok f ∈ items → f.path.isAbsolute = true
  named : ∀ f, .ok f ∈ items → f.path.components.getLast? = some (.name f.fileName)
  declaring : ∀ f, .ok f ∈ items → f.classes ≠ [] ∧ f.classes = f.declarations.map (·.name)

theorem mem_of_mem_items {o : WalkOptions} {items : List Item} {f : SourceFile}
    (h : items.map Item.description = (described m (roots.flatMap (Root.files m o))).map .ok) (hf : .ok f ∈ items) :
    (∃ r ∈ roots, f.path ∈ r.files m o) ∧ f.path.isSource = true := by
  have hdesc : Except.ok (f.path, f.outline) ∈ items.map Item.description := List.mem_map_of_mem hf
  rw [h] at hdesc
  obtain ⟨⟨p, outline⟩, hmem, heq⟩ := List.mem_map.mp hdesc
  cases heq
  obtain ⟨hp, hsource⟩ := mem_of_mem_described hmem
  exact ⟨List.mem_flatMap.mp hp, hsource⟩

/-- A search in memory that passes failures over is the pipeline over the roots of its source. -/
theorem search_isPipeline (m : Memory) (source : Source) (l : Locator) (o : WalkOptions)
    (h : Locator.ofSource m source = .ok l) :
    m.IsPipeline source o l.roots (({ l with options := { walk := o, onFailure := .skip } } : Locator).items m) := by
  obtain ⟨roots, hroots, rfl⟩ : ∃ roots, Locator.rootsOf m source = .ok roots ∧ { roots } = l := by
    unfold Locator.ofSource at h
    cases hr : Locator.rootsOf m source with
    | error e =>
      rw [hr] at h
      cases h
    | ok roots =>
      rw [hr] at h
      exact ⟨roots, rfl, Except.ok.inj h⟩
  have hgrounds := forall₂_grounds hroots
  have hitems : (({ roots, options := { walk := o, onFailure := .skip } } : Locator).items m).map Item.description =
      (described m (roots.flatMap (Root.files m o))).map .ok := description_items rfl
  have hrooted : ∀ f, .ok f ∈ ({ roots, options := { walk := o, onFailure := .skip } } : Locator).items m →
      ∃ r ∈ roots, f.path ∈ r.files m o ∧ f.path.isUnder r.path = true := by
    intro f hf
    obtain ⟨r, hr, hp⟩ := (mem_of_mem_items hitems hf).1
    exact ⟨r, hr, hp, isUnder_of_mem_files hp⟩
  refine ⟨hgrounds, hitems, hrooted, fun f hf => ?_, fun f hf => ?_, fun f _ => ⟨?_, rfl⟩⟩
  · obtain ⟨r, hr, -, hunder⟩ := hrooted f hf
    exact Path.isAbsolute_of_isUnder hunder (isAbsolute_of_mem hgrounds hr)
  · exact fileName_of_isSource (mem_of_mem_items hitems hf).2
  · have hdeclaring := f.declaring
    rw [Php.Outline.isEmpty, List.isEmpty_eq_false_iff] at hdeclaring
    exact fun hnil => hdeclaring (List.map_eq_nil_iff.mp hnil)

/-- A directory and a file in it, which is found twice; the file that cannot be read and the one that is no source are
    passed over. -/
theorem search_isPipeline_twice :
    let m := ((empty.insert ⟨"/p/a.php"⟩ "<?php class A;".toUTF8).insertUnreadable ⟨"/p/b/c.php"⟩).insert ⟨"/p/n"⟩ .empty
    let l : Locator := { roots := [⟨⟨"/p"⟩, .directory⟩, ⟨⟨"/p/a.php"⟩, .file⟩] }
    let items := ({ l with options := { walk := {}, onFailure := .skip } } : Locator).items m
    Locator.ofSource m (.entries [⟨"/p"⟩, ⟨"/p/a.php"⟩]) = .ok l ∧
      m.IsPipeline (.entries [⟨"/p"⟩, ⟨"/p/a.php"⟩]) {} l.roots items ∧
      items.map Item.description = [.ok (⟨"/p/a.php"⟩, ⟨[], [⟨"A", none, .classType, 1⟩]⟩),
        .ok (⟨"/p/a.php"⟩, ⟨[], [⟨"A", none, .classType, 1⟩]⟩)] := by
  intro m l items
  have hl : Locator.ofSource m (.entries [⟨"/p"⟩, ⟨"/p/a.php"⟩]) = .ok l := by decide +kernel
  have hpipeline := search_isPipeline m _ l {} hl
  refine ⟨hl, hpipeline, hpipeline.descriptions.trans ?_⟩
  decide +kernel

end Memory

end TypeFinder
