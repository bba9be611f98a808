import TypeFinder.Proofs.Locator.Links
import TypeFinder.Proofs.Locator.Pipeline
import TypeFinder.Proofs.Memory.Copy

/-! A search on the disk and a search in memory. The two walk in different ways, but on a plain tree both come to the
    same files in the same order, since the order of the paths and what the options say of them leave no choice. -/

namespace TypeFinder

/-- What a root leads to are these files: those that a walk in the tree reaches, in order. -/
structure AreLeaves (d : Disk) (l : Location) (o : WalkOptions) (leaves : List (Except Failure Path))
    (paths : List Path) : Prop where
  leaves : leaves = paths.map .ok
  ordered : paths.Pairwise fun p q => compare p q = .lt
  mem : ∀ p, p ∈ paths ↔
    ∃ x contents access, p = Disk.pathOf x ∧ d.node? x = some (.file contents access) ∧
      d.Reaches (Disk.pathOf l) o l x

section
variable {d : Disk} {m : Memory} {l : Location} {o : WalkOptions} {leaves leaves' : List (Except Failure Path)}
  {paths paths' : List Path} {p : Path}

/-- There is one way only to put the files in order. -/
theorem AreLeaves.unique (h : AreLeaves d l o leaves paths) (h' : AreLeaves d l o leaves' paths') : paths = paths' :=
  Path.eq_of_ordered h.ordered h'.ordered fun p => (h.mem p).trans (h'.mem p).symm

/-! ### The walk on the disk -/

/-- In a plain tree a path leads to a file where there is one. -/
theorem Disk.IsPlain.kind?_eq_file_iff (h : d.IsPlain l) {x : Location} {n : DiskNode} (hx : l <+: x)
    (hn : d.node? x = some n) : d.kind? (pathOf x) = some .file ↔ ∃ contents access, n = .file contents access := by
  rw [h.kind?_pathOf hx hn]
  cases n <;> simp [DiskNode.kind, NodeKind.entryKind]

theorem Disk.IsPlain.exists_areLeaves (h : d.IsPlain l) (o : WalkOptions) :
    ∃ paths, AreLeaves d l o ((⟨Disk.pathOf l, .directory⟩ : Root).leaves d o) paths := by
  obtain ⟨paths, hpaths⟩ := h.hasFileLinks.exists_hasLeaves o
  -- Every path in the tree refers to something, so there is nothing to leave out.
  have hconceals : d.Conceals o l := by
    rintro ⟨x, n⟩ hmem hnone
    obtain ⟨hx, hn⟩ := h.mem_below_iff.mp hmem
    rw [h.kind?_pathOf hx hn] at hnone
    cases hnone
  refine ⟨paths, hpaths.leaves_eq h.hasFileLinks hconceals, hpaths.ordered, fun p => (hpaths.mem p).trans ?_⟩
  constructor
  · rintro ⟨x, rfl, hfile, hreach⟩
    obtain ⟨n, hn⟩ := Option.isSome_iff_exists.mp hreach.there
    obtain ⟨contents, access, rfl⟩ := (h.kind?_eq_file_iff hreach.below hn).mp hfile
    exact ⟨x, contents, access, rfl, hn, hreach⟩
  · rintro ⟨x, contents, access, rfl, hn, hreach⟩
    exact ⟨x, rfl, (h.kind?_eq_file_iff hreach.below hn).mpr ⟨contents, access, rfl⟩, hreach⟩

/-! ### The walk in memory -/

namespace Memory.Holds

theorem kind? (h : d.IsPlain l) (hm : m.Holds d l) (hfiles : d.files l ≠ []) :
    m.kind? (Disk.pathOf l) = some .directory := by
  obtain ⟨⟨p, contents⟩, hp⟩ := List.exists_mem_of_ne_nil _ hfiles
  obtain ⟨x, access, rfl, hx⟩ := h.mem_files_iff.mp hp
  obtain ⟨entries, _, hroot⟩ := h.exists_entries
  have hany : m.stored.any (·.isUnder (Disk.pathOf l)) = true :=
    List.any_eq_true.mpr ⟨_, (hm.mem_stored_iff h).mpr ⟨x, contents, access, rfl, hx⟩⟩
  have hnone : m.file? (Disk.pathOf l) = none := hm.file?_of_directory h List.prefix_rfl hroot rfl
  rw [Memory.kind?, hnone, hany]
  rfl

/-- Nothing is closed, so the walk has no failures. -/
theorem walk_eq_map (h : d.IsPlain l) (hm : m.Holds d l) (hfiles : d.files l ≠ []) (o : WalkOptions) :
    m.walk (Disk.pathOf l) o =
      (⟨Disk.pathOf l, .directory⟩ :: (m.visited (Disk.pathOf l) o).map m.entry).map .ok := by
  have hunder : ∀ e ∈ (⟨Disk.pathOf l, .directory⟩ :: (m.visited (Disk.pathOf l) o).map m.entry : List Entry),
      e.path.isUnder (Disk.pathOf l) = true := by
    refine List.forall_mem_cons.mpr ⟨Path.isUnder_of_same (Path.same_self _), fun e he => ?_⟩
    obtain ⟨p, hp, rfl⟩ := List.mem_map.mp he
    exact (isBelow_of_mem_below (mem_below_of_mem_visited hp)).1.1
  refine (walk_eq (hm.kind? h hfiles)).trans ((List.flatMap_congr fun e he => ?_).trans List.map_eq_flatMap.symm)
  rw [steps, hm.closed e.path (hunder e he), if_neg Bool.false_ne_true]

theorem exists_areLeaves (h : d.IsPlain l) (hm : m.Holds d l) (hfiles : d.files l ≠ []) (o : WalkOptions) :
    ∃ paths, AreLeaves d l o ((⟨Disk.pathOf l, .directory⟩ : Root).leaves m o) paths := by
  refine ⟨(m.visited (Disk.pathOf l) o).filter fun p => m.walkKind p = .file, ?_,
    (pairwise_visited m _ o).filter _, fun p => ?_⟩
  · rw [leaves_directory, hm.walk_eq_map h hfiles]
    refine (filterMap_leaf? id _).trans ?_
    rw [List.filter_cons_of_neg (by simp), List.filter_map, List.map_map, List.map_map]
    rfl
  · have hkind : m.walkKind p = .file ↔ (m.file? p).isSome = true := by
      unfold walkKind
      split <;> simp [*]
    rw [List.mem_filter, decide_eq_true_eq, hkind]
    constructor
    · rintro ⟨hp, hfile⟩
      obtain ⟨x, n, rfl, hx, hn⟩ := hm.exists_of_mem_below h (mem_below_of_mem_visited hp)
      obtain ⟨c, hc⟩ := Option.isSome_iff_exists.mp hfile
      obtain ⟨contents, access, -, rfl⟩ := (hm.file?_iff h hx hn).mp hc
      exact ⟨x, contents, access, rfl, hn, (hm.mem_visited_iff h hx hn).mp hp⟩
    · rintro ⟨x, contents, access, rfl, hn, hreach⟩
      have hfile := (hm.file?_iff h hreach.below hn).mpr ⟨contents, access, rfl, rfl⟩
      exact ⟨(hm.mem_visited_iff h hreach.below hn).mpr hreach, by rw [hfile]; rfl⟩

theorem read (h : d.IsPlain l) (hm : m.Holds d l) {x : Location} {contents : ByteArray} {access : Access}
    (hx : l <+: x) (hn : d.node? x = some (.file contents access)) : m.read (Disk.pathOf x) = .ok contents := by
  rw [Memory.read, (hm.file?_iff h hx hn).mpr ⟨contents, access, rfl, rfl⟩]

end Memory.Holds

/-! ### The search -/

/-- On a plain tree that holds a file, a search on the disk and a search in a memory that holds the same files yield the
    same. -/
theorem Disk.search_eq_of_holds (d : Disk) (m : Memory) (l : Location) (source : Source) (o : SearchOptions)
    (h : d.IsPlain l) (hm : m.Holds d l) (hfiles : d.files l ≠ []) (hsource : source.paths = [Disk.pathOf l]) :
    ∃ roots, Locator.ofSource d source = .ok { roots } ∧ Locator.ofSource m source = .ok { roots } ∧
      ({ roots, options := o } : Locator).items d = ({ roots, options := o } : Locator).items m := by
  have hdisk : Locator.ofSource d source = .ok { roots := [⟨pathOf l, .directory⟩] } :=
    Locator.ofSource_eq hsource h.hasFileLinks.kind? (congrArg (Except.mapError IoError.os) h.hasFileLinks.absolute)
  have hmemory : Locator.ofSource m source = .ok { roots := [⟨pathOf l, .directory⟩] } :=
    Locator.ofSource_eq hsource (hm.kind? h hfiles) (congrArg Except.ok (if_pos (isAbsolute_pathOf l)))
  obtain ⟨paths, hpaths⟩ := h.exists_areLeaves o.walk
  obtain ⟨paths', hpaths'⟩ := hm.exists_areLeaves h hfiles o.walk
  obtain rfl := hpaths.unique hpaths'
  have hmeet : ∀ leaf ∈ paths.map Except.ok, meet? d leaf = meet? m leaf := by
    intro leaf hleaf
    obtain ⟨p, hp, rfl⟩ := List.mem_map.mp hleaf
    obtain ⟨x, contents, access, rfl, hn, hreach⟩ := (hpaths.mem p).mp hp
    have hread : FileSystem.read d (pathOf x) = FileSystem.read m (pathOf x) :=
      (congrArg (Except.mapError IoError.os) (h.read_pathOf hreach.below hn)).trans (hm.read h hreach.below hn).symm
    rw [meet?, meet?, look?, look?, hread]
  have hmet : met d o.walk [⟨pathOf l, .directory⟩] = met m o.walk [⟨pathOf l, .directory⟩] := by
    rw [met, met, List.flatMap_singleton, List.flatMap_singleton, hpaths.leaves, hpaths'.leaves]
    exact List.filterMap_congr hmeet
  refine ⟨_, hdisk, hmemory, ?_⟩
  rw [Locator.items_eq, Locator.items_eq]
  exact congrArg _ hmet

/-- A directory is left out and one is empty, and `b-c` stands behind what is in `b`. -/
theorem Disk.search_eq_of_holds_nested :
    let file (name text : String) : String × DiskNode := (name, .file text.toUTF8)
    let d : Disk := ⟨.directory [("p", .directory [file "b-c.php" "<?php class C;", ("e", .directory []),
      ("b", .directory [file "z.php" "<?php class Z;"]), ("v", .directory [file "a.php" "<?php class V;"])])], []⟩
    let m : Memory := ((Memory.empty.insert ⟨"/p/v/a.php"⟩ "<?php class V;".toUTF8).insert ⟨"/p/b-c.php"⟩
      "<?php class C;".toUTF8).insert ⟨"/p/b/z.php"⟩ "<?php class Z;".toUTF8
    let o : SearchOptions := { walk := { excluded := (Glob.ofTexts ["v"]).toOption.getD [] }, onFailure := .skip }
    d.IsPlain ["p"] ∧ m.Holds d ["p"] ∧ d.files ["p"] ≠ [] ∧
      ∃ roots, Locator.ofSource d (.directory ⟨"/p"⟩) = .ok { roots } ∧
        Locator.ofSource m (.directory ⟨"/p"⟩) = .ok { roots } ∧
        ({ roots, options := o } : Locator).items d = ({ roots, options := o } : Locator).items m ∧
        (({ roots, options := o } : Locator).items m).map Item.description =
          [.ok (⟨"/p/b/z.php"⟩, ⟨[], [⟨"Z", none, .classType, 1⟩]⟩),
            .ok (⟨"/p/b-c.php"⟩, ⟨[], [⟨"C", none, .classType, 1⟩]⟩)] := by
  intro file d m o
  have htree : d.IsTree ["p"] := ⟨by decide +kernel, by decide +kernel, by decide +kernel⟩
  have hplain : d.IsPlain ["p"] := htree.isPlain (by decide +kernel) (by decide +kernel)
  have hholds : m.Holds d ["p"] := ⟨by decide +kernel, fun p _ => rfl⟩
  have hfiles : d.files ["p"] ≠ [] := by decide +kernel
  obtain ⟨roots, hdisk, hmemory, hitems⟩ :=
    Disk.search_eq_of_holds d m ["p"] (.directory ⟨"/p"⟩) o hplain hholds hfiles rfl
  have hroots : Locator.ofSource m (.directory ⟨"/p"⟩) = .ok { roots := [⟨⟨"/p"⟩, .directory⟩] } := by decide +kernel
  obtain rfl : [⟨⟨"/p"⟩, .directory⟩] = roots := by
    rw [hroots] at hmemory
    exact congrArg Locator.roots (Except.ok.inj hmemory)
  exact ⟨hplain, hholds, hfiles, _, hdisk, hmemory, hitems, (description_items rfl).trans (by decide +kernel)⟩

end

end TypeFinder
