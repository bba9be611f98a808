import TypeFinder.Proofs.Locator.Pipeline
import TypeFinder.Proofs.Memory.Children

/-! Entries in the place of a directory. The children of a directory, named one after the other, are searched like the
    directory: a directory among them by a walk of its own, a file by itself. And where failures are passed over, two
    lists of entries are searched one after the other. -/

namespace TypeFinder

/-! ### One list of entries after another -/

namespace Locator

section
variable {σ : Type} [FileSystem σ] {fs : σ} {o : SearchOptions} {roots roots' : List Root} {es es' : List Path}

theorem met_append (fs : σ) (o : WalkOptions) (roots roots' : List Root) :
    met fs o (roots ++ roots') = met fs o roots ++ met fs o roots' := by
  rw [met, met, met, List.flatMap_append, List.filterMap_append]

/-- A search that passes failures over goes through its roots one after the other. -/
theorem items_append (hskip : o.onFailure = .skip) : ({ roots := roots ++ roots', options := o } : Locator).items fs =
    ({ roots, options := o } : Locator).items fs ++ ({ roots := roots', options := o } : Locator).items fs := by
  rw [items_eq, items_eq, items_eq, hskip, met_append]
  exact List.filter_append ..

theorem ofSource_entries_append (h : ofSource fs (.entries es) = .ok { roots })
    (h' : ofSource fs (.entries es') = .ok { roots := roots' }) :
    ofSource fs (.entries (es ++ es')) = .ok { roots := roots ++ roots' } := by
  obtain ⟨hne, hroots⟩ := ofSource_entries_eq_ok_iff.mp h
  obtain ⟨-, hroots'⟩ := ofSource_entries_eq_ok_iff.mp h'
  exact ofSource_entries_eq_ok_iff.mpr ⟨List.append_ne_nil_of_left_ne_nil hne _, List.rel_append hroots hroots'⟩

end

end Locator

/-! ### The children of a directory -/

namespace Memory

/-- A file is not a closed directory as well, and nothing is stored below it. -/
def FilesAreLeaves (m : Memory) : Prop :=
  ∀ p ∈ m.files.keys, m.isClosed p = false ∧ ∀ s ∈ m.stored, ¬ s.IsBelow p

instance (m : Memory) : Decidable m.FilesAreLeaves := inferInstanceAs (Decidable (∀ p ∈ m.files.keys, _))

/-- The root that a child makes. -/
def childRoot (m : Memory) (c : Path) : Root := ⟨c, m.walkKind c⟩

section
variable {m : Memory} {o : WalkOptions} {p c d : Path}

theorem FilesAreLeaves.of_file? (hleaves : m.FilesAreLeaves) (hfile : (m.file? p).isSome = true) :
    m.isClosed p = false ∧ ∀ s ∈ m.stored, ¬ s.IsBelow p := by
  obtain ⟨contents, hcontents⟩ := Option.isSome_iff_exists.mp hfile
  obtain ⟨q, hsame, hq⟩ := file?_eq_some_iff.mp hcontents
  obtain ⟨hopen, hnone⟩ := hleaves q (Std.TreeMap.map_fst_toList_eq_keys ▸ List.mem_map_of_mem hq)
  refine ⟨isClosed_eq_of_same hsame ▸ hopen, fun s hs hbelow => hnone s hs ?_⟩
  exact (Path.isBelow_congr (Path.same_self s) hsame).mpr hbelow

theorem children_ne_nil (hkind : m.kind? d = some .directory) (hopen : m.isClosed d = false) : m.children d ≠ [] := by
  unfold kind? at hkind
  split at hkind
  · cases hkind
  rename_i hfile
  split at hkind
  · rename_i hany
    obtain ⟨s, hs, hunder⟩ := List.any_eq_true.mp hany
    have hbelow : s.IsBelow d := ⟨hunder, same_eq_false_of_mem_stored (by simpa using hfile) hopen hs⟩
    obtain ⟨c, hc, -⟩ := exists_child (spelling_mem_below hbelow hs (Path.isUnder_of_same (Path.same_self s))).1
    exact List.ne_nil_of_mem hc
  · cases hkind

/-- What is right below an absolute path makes a root of its own. -/
theorem resolveEntry_child (habsolute : d.isAbsolute = true) (hc : c ∈ m.children d) :
    Locator.resolveEntry m c = .ok (m.childRoot c) := by
  have hpath : absolute c = c := if_pos (Path.isAbsolute_of_isUnder (isBelow_of_mem_children hc).1 habsolute)
  refine Locator.resolveEntry_eq_ok_iff.mpr
    ⟨congrArg Except.ok hpath, kind?_of_mem_below (mem_children_iff.mp hc).1, ?_⟩
  show m.walkKind c = .file ∨ m.walkKind c = .directory
  unfold walkKind
  split
  · exact .inl rfl
  · exact .inr rfl

/-- A file is not walked, and a walk from it would come to it alone. -/
theorem leaves_child (hleaves : m.FilesAreLeaves) (c : Path) :
    (m.childRoot c).leaves m o = (m.walk c o).filterMap leaf? := by
  cases hfile : (m.file? c).isSome with
  | false =>
    have hroot : m.childRoot c = ⟨c, .directory⟩ := by rw [childRoot, walkKind, hfile]; rfl
    rw [hroot, leaves_directory]
  | true =>
    -- Nothing is below a file, so a walk from it is over at once.
    obtain ⟨hopen, hnone⟩ := hleaves.of_file? hfile
    have hkind : m.kind? c = some .file := by rw [kind?, hfile]; rfl
    have hbelow : m.below c = [] := by
      rw [List.eq_nil_iff_forall_not_mem]
      intro p hp
      obtain ⟨hpc, s, hs, hsp⟩ := isBelow_of_mem_below hp
      exact hnone s hs (hpc.of_isUnder hsp)
    have hroot : m.childRoot c = ⟨c, .file⟩ := by rw [childRoot, walkKind, hfile]; rfl
    rw [hroot, Root.leaves_of_ne EntryKind.noConfusion, walk, hkind, hopen, hbelow]
    rfl

/-- A directory leads to what its children lead to. -/
theorem leaves_eq_flatMap (hleaves : m.FilesAreLeaves) (hkind : m.kind? d = some .directory) (hexcluded : o.excluded = [])
    (hopen : m.isClosed d = false) (hallow : ∀ c ∈ m.children d, o.allows d c = true) :
    (⟨d, .directory⟩ : Root).leaves m o = ((m.children d).map m.childRoot).flatMap (Root.leaves m o) := by
  rw [leaves_directory, walk_eq_flatMap hkind hexcluded hopen hallow, List.filterMap_cons, List.filterMap_flatMap,
    List.flatMap_map]
  exact List.flatMap_congr fun c _ => (leaves_child hleaves c).symm

end

/-! ### The search -/

/-- Entries are searched where they stand. -/
structure ExpandsInPlace (m : Memory) (o : SearchOptions) : Prop where
  /-- The children of an open directory, none of which is left out, are searched like the directory. -/
  directory : m.FilesAreLeaves → o.walk.excluded = [] → ∀ d, d.isAbsolute = true → m.kind? d = some .directory →
    m.isClosed d = false → (o.walk.skipHidden = false ∨ ∀ c ∈ m.children d, c.isHidden = false) →
    ∃ roots roots', Locator.ofSource m (.entries (m.children d)) = .ok { roots } ∧
      Locator.ofSource m (.directory d) = .ok { roots := roots' } ∧
      ({ roots, options := o } : Locator).items m = ({ roots := roots', options := o } : Locator).items m
  /-- Where failures are passed over, two lists are searched one after the other. -/
  append : o.onFailure = .skip → ∀ es es' roots roots', Locator.ofSource m (.entries es) = .ok { roots } →
    Locator.ofSource m (.entries es') = .ok { roots := roots' } →
    ∃ all, Locator.ofSource m (.entries (es ++ es')) = .ok { roots := all } ∧
      ({ roots := all, options := o } : Locator).items m =
        ({ roots, options := o } : Locator).items m ++ ({ roots := roots', options := o } : Locator).items m

theorem expandsInPlace (m : Memory) (o : SearchOptions) : m.ExpandsInPlace o where
  directory hleaves hexcluded d habsolute hkind hopen hhidden := by
    have hallow : ∀ c ∈ m.children d, o.walk.allows d c = true := by
      intro c hc
      rw [allows_of_isBelow hexcluded (isBelow_of_mem_children hc)]
      rcases hhidden with hoff | hnone
      · rw [hoff]
        rfl
      · rw [hnone c hc, Bool.and_false]
        rfl
    have hentries : Locator.ofSource m (.entries (m.children d)) = .ok { roots := (m.children d).map m.childRoot } :=
      Locator.ofSource_entries_eq_ok_iff.mpr ⟨children_ne_nil hkind hopen,
        List.forall₂_map_right_iff.mpr (List.forall₂_same.mpr fun c hc => resolveEntry_child habsolute hc)⟩
    have hdirectory : Locator.ofSource m (.directory d) = .ok { roots := [⟨d, .directory⟩] } :=
      Locator.ofSource_eq rfl hkind (congrArg Except.ok (if_pos habsolute))
    refine ⟨_, _, hentries, hdirectory, ?_⟩
    rw [Locator.items_eq, Locator.items_eq, met, met, List.flatMap_singleton,
      leaves_eq_flatMap hleaves hkind hexcluded hopen hallow]
  append hskip es es' roots roots' h h' :=
    ⟨roots ++ roots', Locator.ofSource_entries_append h h', Locator.items_append hskip⟩

/-- A child is closed, one holds a file that cannot be read, and one stands between a directory and what is in it. Two
    lists have a failure each, which is passed over. -/
theorem expandsInPlace_nested :
    let m := (((empty.insert ⟨"/p/b/c.php"⟩ "<?php class C {}".toUTF8).insert ⟨"/p/b-a.php"⟩
      "<?php class A {}".toUTF8).insertUnreadable ⟨"/p/e/.f.php"⟩).insertUnreadableDirectory ⟨"/p/d"⟩
    let o : SearchOptions := { walk := { skipHidden := true } }
    let children : List Path := [⟨"/p/b"⟩, ⟨"/p/b-a.php"⟩, ⟨"/p/d"⟩, ⟨"/p/e"⟩]
    m.FilesAreLeaves ∧ m.children ⟨"/p"⟩ = children ∧
      ∃ roots roots', Locator.ofSource m (.entries children) = .ok { roots } ∧
        Locator.ofSource m (.directory ⟨"/p"⟩) = .ok { roots := roots' } ∧
        ({ roots, options := o } : Locator).items m = ({ roots := roots', options := o } : Locator).items m ∧
      ∃ all, Locator.ofSource m (.entries ([⟨"/p/e"⟩, ⟨"/p/b-a.php"⟩] ++ [⟨"/p/d"⟩, ⟨"/p/b"⟩])) = .ok { roots := all } ∧
        (({ roots := all, options := { onFailure := .skip } } : Locator).items m).map Item.description =
          [.ok (⟨"/p/b-a.php"⟩, ⟨[], [⟨"A", none, .classType, 1⟩]⟩),
            .ok (⟨"/p/b/c.php"⟩, ⟨[], [⟨"C", none, .classType, 1⟩]⟩)] := by
  intro m o children
  have hleaves : m.FilesAreLeaves := by decide +kernel
  have hchildren : m.children ⟨"/p"⟩ = children := by decide +kernel
  obtain ⟨roots, roots', hentries, hdirectory, hitems⟩ := hchildren ▸ (expandsInPlace m o).directory hleaves rfl
    ⟨"/p"⟩ (by decide +kernel) (by decide +kernel) (by decide +kernel) (.inr (by decide +kernel))
  obtain ⟨all, hall, happend⟩ := (expandsInPlace m { onFailure := .skip }).append rfl [⟨"/p/e"⟩, ⟨"/p/b-a.php"⟩]
    [⟨"/p/d"⟩, ⟨"/p/b"⟩] [⟨⟨"/p/e"⟩, .directory⟩, ⟨⟨"/p/b-a.php"⟩, .file⟩] [⟨⟨"/p/d"⟩, .directory⟩, ⟨⟨"/p/b"⟩, .directory⟩]
    (by decide +kernel) (by decide +kernel)
  refine ⟨hleaves, hchildren, roots, roots', hentries, hdirectory, hitems, all, hall, ?_⟩
  rw [happend, Locator.items_eq, Locator.items_eq]
  decide +kernel

end Memory
end TypeFinder
