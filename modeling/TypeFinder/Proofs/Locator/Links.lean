import TypeFinder.Proofs.Disk.Walk
import TypeFinder.Proofs.Locator.Policies
import TypeFinder.Proofs.Locator.Roots

/-! Searches that follow links and searches that do not. Where links lead to files, both come to the same files, since
    a link is taken for what it leads to either way. They part at links that lead nowhere: these are failures of a walk
    that follows links, and it comes to them before the options are asked whether to leave them out. -/

namespace TypeFinder

/-- The options, with links followed or not. -/
def SearchOptions.following (o : SearchOptions) (follow : Bool) : SearchOptions :=
  { o with walk := { o.walk with followLinks := follow } }

/-- Every link that leads nowhere is in a directory that the options leave out. -/
def Disk.Conceals (d : Disk) (o : WalkOptions) (l : Location) : Prop :=
  ∀ y ∈ d.below l, d.kind? (Disk.pathOf y.1) = none →
    ∃ x, l <+: x ∧ x <+: y.1 ∧ x ≠ y.1 ∧ o.allows (Disk.pathOf l) (Disk.pathOf x) = false

/-- The files that a root leads to are these: those that a walk in the tree reaches, in order. It fails at what it comes
    to and cannot examine. -/
structure HasLeaves (d : Disk) (l : Location) (o : WalkOptions) (leaves : List (Except Failure Path))
    (paths : List Path) : Prop where
  files : leaves.filter (·.isOk) = paths.map .ok
  failing : ∀ p, (∃ cause, .error ⟨p, cause⟩ ∈ leaves) ↔
    ∃ x, p = Disk.pathOf x ∧ d.examines o x = false ∧ d.ComesTo (Disk.pathOf l) o l x
  ordered : paths.Pairwise fun p q => compare p q = .lt
  mem : ∀ p, p ∈ paths ↔
    ∃ x, p = Disk.pathOf x ∧ d.kind? (Disk.pathOf x) = some .file ∧ d.Reaches (Disk.pathOf l) o l x

section
variable {d : Disk} {l : Location} {o : WalkOptions} {leaves : List (Except Failure Path)} {paths : List Path}

/-! ### The files of a walk -/

theorem Disk.kind_shown_iff {x : Location} : (d.shown x).kind = .file ↔ d.kind? (Disk.pathOf x) = some .file := by
  rw [shown]
  cases d.kind? (Disk.pathOf x) <;> simp

theorem Disk.HasFileLinks.exists_hasLeaves (h : d.HasFileLinks l) (o : WalkOptions) :
    ∃ paths, HasLeaves d l o ((⟨Disk.pathOf l, .directory⟩ : Root).leaves d o) paths := by
  obtain ⟨xs, hxs⟩ := DiskWalk.exists_isTour (o := o) h (.cons (DiskWalk.stands_root h) .nil)
    (List.pairwise_singleton _ _) (by simp)
  have hleaves : (⟨Disk.pathOf l, .directory⟩ : Root).leaves d o =
      (DiskWalk.course d (Disk.pathOf l) o [.root]).filterMap leaf? := rfl
  refine ⟨(xs.filter fun x => (d.shown x).kind = .file).map Disk.pathOf, ?_, fun p => ?_, ?_, fun p => ?_⟩
  · rw [hleaves, filter_filterMap_leaf?, hxs.visits]
    exact filterMap_leaf? d.shown xs
  · simp only [hleaves, error_mem_filterMap_leaf?, hxs.failing, List.mem_singleton, exists_eq_left]
  · exact List.pairwise_map.mpr (hxs.ordered.filter _)
  · simp only [List.mem_map, List.mem_filter, decide_eq_true_eq, hxs.mem, List.mem_singleton, exists_eq_left,
      Disk.kind_shown_iff]
    constructor
    · rintro ⟨x, ⟨⟨-, hreach⟩, hfile⟩, rfl⟩
      exact ⟨x, rfl, hfile, hreach⟩
    · rintro ⟨x, rfl, hfile, hreach⟩
      exact ⟨x, ⟨⟨Disk.examines_of_isSome (Option.isSome_of_eq_some hfile), hreach⟩, hfile⟩, rfl⟩

/-- Links followed or not, the files are the same. -/
theorem HasLeaves.unique {follow : Bool} {leaves' : List (Except Failure Path)} {paths' : List Path}
    (h : HasLeaves d l o leaves paths) (h' : HasLeaves d l { o with followLinks := follow } leaves' paths') :
    paths = paths' := by
  have hreaches (x : Location) : d.Reaches (Disk.pathOf l) o l x ↔
      d.Reaches (Disk.pathOf l) { o with followLinks := follow } l x :=
    ⟨fun h => ⟨h.below, h.there, h.allowed⟩, fun h => ⟨h.below, h.there, h.allowed⟩⟩
  refine Path.eq_of_ordered h.ordered h'.ordered fun p => ?_
  rw [h.mem, h'.mem]
  simp only [hreaches]

/-- Where links that lead nowhere are left out, a walk has no failures. -/
theorem HasLeaves.leaves_eq (h : HasLeaves d l o leaves paths) (htree : d.HasFileLinks l) (hconceals : d.Conceals o l) :
    leaves = paths.map .ok := by
  rw [← h.files, eq_comm, List.filter_eq_self]
  rintro (f | p) hleaf
  · obtain ⟨y, -, hfail, hcomes⟩ := (h.failing f.path).mp ⟨f.cause, hleaf⟩
    obtain ⟨n, hn⟩ := Option.isSome_iff_exists.mp hcomes.there
    have hnone : d.kind? (Disk.pathOf y) = none := by
      rw [Disk.examines, Bool.or_eq_false_iff] at hfail
      exact Option.isNone_iff_eq_none.mp (by simpa using hfail.2)
    obtain ⟨x, hlx, hxy, hne, hallow⟩ := hconceals (y, n) (htree.mem_below_iff.mpr ⟨hcomes.below, hn⟩) hnone
    rw [hcomes.allowed x hlx hxy hne] at hallow
    cases hallow
  · rfl

end

/-- The files of a tree can be read. -/
theorem HasLeaves.read_ne_error {d : Disk} {l : Location} {o : WalkOptions} {leaves : List (Except Failure Path)}
    {paths : List Path} {p : Path} {cause : IoError} (h : HasLeaves d l o leaves paths) (htree : d.HasFileLinks l)
    (hp : .ok p ∈ leaves) : FileSystem.read d p ≠ .error cause := by
  intro hfail
  have hmem : .ok p ∈ paths.map Except.ok := h.files ▸ List.mem_filter.mpr ⟨hp, rfl⟩
  obtain ⟨x, rfl, hfile, hreach⟩ := (h.mem p).mp (by simpa using hmem)
  obtain ⟨n, hn⟩ := Option.isSome_iff_exists.mp hreach.there
  obtain ⟨contents, hread⟩ := Disk.exists_read_of_opens
    (htree.opens (x, n) (htree.mem_below_iff.mpr ⟨hreach.below, hn⟩) fun _ => hfile) hfile
  have hfail : (d.read (Disk.pathOf x)).mapError .os = .error cause := hfail
  rw [hread] at hfail
  cases hfail

/-! ### The search -/

/-- One of the paths of the source is a directory, and it is the one at this location. -/
def Source.LeadsTo (source : Source) (d : Disk) (k : Location) : Prop :=
  ∃ p ∈ source.paths, d.locate .target p = .ok k ∧ d.isDirectory k = true

/-- Whether links are followed makes no difference to a search. -/
structure Disk.IgnoresFollowing (d : Disk) (source : Source) (l : Locator) (o : SearchOptions) : Prop where
  items : ({ l with options := o.following true } : Locator).items d =
    ({ l with options := o.following false } : Locator).items d
  /-- A link to a file is come to like a file. -/
  linked : ∀ k, source.LeadsTo d k → ∀ x, d.Reaches (Disk.pathOf k) o.walk k x →
    d.kind? (Disk.pathOf x) = some .file →
    ∀ follow, .ok (Disk.pathOf x) ∈ l.roots.flatMap (Root.leaves d (o.following follow).walk)
  /-- A directory is searched without a failure. -/
  failing : ∀ follow f, .error f ∈ ({ l with options := o.following follow } : Locator).items d →
    ∃ r ∈ l.roots, r.kind = .file ∧ f.path = r.path

namespace Disk

section
variable {d : Disk} {source : Source} {l : Locator} {o : SearchOptions} {k : Location} {r : Root} {roots : List Root}

theorem exists_leadsTo (h : List.Forall₂ d.Grounds source.paths roots) (hr : r ∈ roots) (hkind : r.kind = .directory) :
    ∃ k, source.LeadsTo d k ∧ r = ⟨pathOf k, .directory⟩ := by
  obtain ⟨p, hp, hpr⟩ := exists_mem_of_forall₂ h hr
  obtain ⟨k, hk, hpath, hdirectory⟩ := hpr.exists_location
  refine ⟨k, ⟨p, hp, hk, hdirectory.mp hkind⟩, ?_⟩
  rw [← hpath, ← hkind]

theorem mem_roots_of_leadsTo (h : List.Forall₂ d.Grounds source.paths roots) (hk : source.LeadsTo d k) :
    ⟨pathOf k, .directory⟩ ∈ roots := by
  obtain ⟨p, hp, hlocate, hdirectory⟩ := hk
  obtain ⟨r, hr, hpr⟩ := exists_mem_of_forall₂ h.flip hp
  obtain ⟨k', hk', hpath, hkind⟩ := Disk.Grounds.exists_location hpr
  obtain rfl := Except.ok.inj (hlocate.symm.trans hk')
  have hroot : r = ⟨pathOf k, .directory⟩ := by rw [← hpath, ← hkind.mpr hdirectory]
  exact hroot ▸ hr

/-- Of each root the files are the same, links followed or not. -/
theorem exists_files (h : List.Forall₂ d.Grounds source.paths roots)
    (htrees : ∀ k, source.LeadsTo d k → d.HasFileLinks k) (hr : r ∈ roots) :
    ∃ paths : List Path, ∀ follow, (r.leaves d (o.following follow).walk).filter (·.isOk) = paths.map .ok := by
  by_cases hkind : r.kind = .directory
  · obtain ⟨k, hk, rfl⟩ := exists_leadsTo h hr hkind
    obtain ⟨paths, hpaths⟩ := (htrees k hk).exists_hasLeaves (o.following true).walk
    refine ⟨paths, fun follow => ?_⟩
    obtain ⟨paths', hpaths'⟩ := (htrees k hk).exists_hasLeaves (o.following follow).walk
    rw [hpaths.unique hpaths']
    exact hpaths'.files
  · refine ⟨[r.path], fun follow => ?_⟩
    rw [Root.leaves_of_ne hkind]
    rfl

/-- Where links that lead nowhere are left out, no walk of a root has failures. -/
theorem filter_leaves (h : List.Forall₂ d.Grounds source.paths roots)
    (htrees : ∀ k, source.LeadsTo d k → d.HasFileLinks k) (hconceals : ∀ k, source.LeadsTo d k → d.Conceals o.walk k)
    (hr : r ∈ roots) (follow : Bool) :
    (r.leaves d (o.following follow).walk).filter (·.isOk) = r.leaves d (o.following follow).walk := by
  by_cases hkind : r.kind = .directory
  · obtain ⟨k, hk, rfl⟩ := exists_leadsTo h hr hkind
    obtain ⟨paths, hpaths⟩ := (htrees k hk).exists_hasLeaves (o.following follow).walk
    exact hpaths.files.trans (hpaths.leaves_eq (htrees k hk) (hconceals k hk)).symm
  · rw [Root.leaves_of_ne hkind]
    rfl

/-- Where links that lead nowhere are left out, only a file that is a root itself may fail. -/
theorem exists_file_of_error (h : List.Forall₂ d.Grounds source.paths l.roots)
    (htrees : ∀ k, source.LeadsTo d k → d.HasFileLinks k) (hconceals : ∀ k, source.LeadsTo d k → d.Conceals o.walk k)
    {follow : Bool} {f : Failure} (hf : .error f ∈ ({ l with options := o.following follow } : Locator).items d) :
    ∃ r ∈ l.roots, r.kind = .file ∧ f.path = r.path := by
  obtain ⟨r, hr, hleaf | ⟨hleaf, hread⟩⟩ := Locator.exists_leaf_of_error hf
  · have hleaf : .error f ∈ r.leaves d (o.following follow).walk := hleaf
    rw [← filter_leaves h htrees hconceals hr follow] at hleaf
    cases (List.mem_filter.mp hleaf).2
  · obtain ⟨q, -, hground⟩ := exists_mem_of_forall₂ h hr
    rcases hground.ordinary with hkind | hkind
    · rw [Root.leaves_of_ne (by rw [hkind]; decide), List.mem_singleton] at hleaf
      exact ⟨r, hr, hkind, Except.ok.inj hleaf⟩
    · obtain ⟨k, hk, rfl⟩ := exists_leadsTo h hr hkind
      obtain ⟨paths, hpaths⟩ := (htrees k hk).exists_hasLeaves (o.following follow).walk
      exact absurd hread (hpaths.read_ne_error (htrees k hk) hleaf)

/-- In trees whose links lead to files or nowhere, it makes no difference to a search whether links are followed, if it
    passes failures over or leaves out the directories with links that lead nowhere. -/
theorem search_ignoresFollowing (d : Disk) (source : Source) (l : Locator) (o : SearchOptions)
    (hl : Locator.ofSource d source = .ok l) (htrees : ∀ k, source.LeadsTo d k → d.HasFileLinks k)
    (hconceals : o.onFailure = .skip ∨ ∀ k, source.LeadsTo d k → d.Conceals o.walk k) :
    d.IgnoresFollowing source l o := by
  have hroots : List.Forall₂ d.Grounds source.paths l.roots := forall₂_grounds (Locator.rootsOf_of_ofSource hl).1
  have hfiles : ∀ r ∈ l.roots, (r.leaves d (o.following true).walk).filter (·.isOk) =
      (r.leaves d (o.following false).walk).filter (·.isOk) := by
    intro r hr
    obtain ⟨paths, hpaths⟩ := exists_files (o := o) hroots htrees hr
    rw [hpaths true, hpaths false]
  refine ⟨?_, fun k hk x hreach hfile follow => ?_, fun follow f hf => ?_⟩
  · rw [Locator.items_eq, Locator.items_eq]
    show o.onFailure.pass (met d (o.following true).walk l.roots) =
      o.onFailure.pass (met d (o.following false).walk l.roots)
    rcases hconceals with hskip | hconceals
    · rw [hskip, Policy.pass, met, met, filter_met, filter_met d (l.roots.flatMap (Root.leaves d (o.following false).walk)),
        List.filter_flatMap, List.filter_flatMap, List.flatMap_congr hfiles]
    · have hleaves : ∀ r ∈ l.roots, r.leaves d (o.following true).walk = r.leaves d (o.following false).walk := by
        intro r hr
        rw [← filter_leaves hroots htrees hconceals hr true, hfiles r hr,
          filter_leaves hroots htrees hconceals hr false]
      rw [met, met, List.flatMap_congr hleaves]
  · obtain ⟨paths, hpaths⟩ := (htrees k hk).exists_hasLeaves (o.following follow).walk
    have hmem : pathOf x ∈ paths := (hpaths.mem _).mpr ⟨x, rfl, hfile, hreach.below, hreach.there, hreach.allowed⟩
    refine List.mem_flatMap.mpr ⟨_, mem_roots_of_leadsTo hroots hk, List.mem_of_mem_filter (p := (·.isOk)) ?_⟩
    rw [hpaths.files]
    exact List.mem_map_of_mem hmem
  · rcases hconceals with hskip | hconceals
    · have hpolicy : ({ l with options := o.following follow } : Locator).options.onFailure = .skip := hskip
      rw [Locator.items_eq, hpolicy] at hf
      cases (List.mem_filter.mp hf).2
    · exact exists_file_of_error hroots htrees hconceals hf

theorem HasFileLinks.eq_of_leadsTo {x : Location} (h : d.HasFileLinks k) (hsource : source.paths = [pathOf k])
    (hx : source.LeadsTo d x) : x = k := by
  obtain ⟨p, hp, hlocate, -⟩ := hx
  rw [hsource] at hp
  obtain rfl := List.mem_singleton.mp hp
  exact Except.ok.inj (hlocate.symm.trans h.locate_root)

theorem HasFileLinks.ofSource_eq (h : d.HasFileLinks k) (hsource : source.paths = [pathOf k]) :
    Locator.ofSource d source = .ok { roots := [⟨pathOf k, .directory⟩] } :=
  Locator.ofSource_eq hsource h.kind? (congrArg (Except.mapError IoError.os) h.absolute)

/-- A link to a file is searched, and one that leads nowhere is in a directory that is left out. -/
theorem search_ignoresFollowing_linked :
    let d : Disk := ⟨.directory [("p", .directory [("a.php", .file "<?php class A;".toUTF8), ("b.php", .link ⟨"a.php"⟩),
      ("v", .directory [("c.php", .link ⟨"gone.php"⟩)])])], []⟩
    let source : Source := .directory ⟨"/p"⟩
    let l : Locator := { roots := [⟨⟨"/p"⟩, .directory⟩] }
    let o : SearchOptions := { walk := { excluded := (Glob.ofTexts ["v"]).toOption.getD [] } }
    Locator.ofSource d source = .ok l ∧ (∀ k, source.LeadsTo d k → d.HasFileLinks k) ∧
      (o.onFailure = .skip ∨ ∀ k, source.LeadsTo d k → d.Conceals o.walk k) ∧ d.IgnoresFollowing source l o ∧
      ∀ follow, .ok ⟨"/p/b.php"⟩ ∈ l.roots.flatMap (Root.leaves d (o.following follow).walk) := by
  intro d source l o
  have hnamed : d.IsNamed ["p"] := ⟨by decide +kernel, by decide +kernel, by decide +kernel⟩
  have hlinks : ∀ y ∈ d.below ["p"], y.2.kind = .link → y.1 = ["p", "b.php"] ∨ y.1 = ["p", "v", "c.php"] := by
    decide +kernel
  have hb : d.lookup .target (pathOf ["p", "b.php"]) = .ok (.file "<?php class A;".toUTF8) :=
    hnamed.lookup_link (x := ["p"]) List.prefix_rfl "b.php" "a.php" ⟨"a.php"⟩ rfl (by decide) (by decide +kernel)
      (by decide +kernel) fun n hn => by cases hn; nofun
  have hc : d.lookup .target (pathOf ["p", "v", "c.php"]) = .error .notFound :=
    hnamed.lookup_link (x := ["p", "v"]) ⟨["v"], rfl⟩ "c.php" "gone.php" ⟨"gone.php"⟩ rfl (by decide)
      (by decide +kernel) (by decide +kernel) nofun
  have hb := opens_of_lookup hb rfl
  have hc : d.kind? (pathOf ["p", "v", "c.php"]) = none := by rw [kind?, hc]
  have htree : d.HasFileLinks ["p"] := hnamed.hasFileLinks (by decide +kernel) (by decide +kernel) fun y hy hlink => by
    rcases hlinks y hy hlink with hy | hy
    · exact .inl (hy ▸ hb)
    · exact .inr (hy ▸ hc)
  have htrees : ∀ k, source.LeadsTo d k → d.HasFileLinks k := fun k hk => htree.eq_of_leadsTo rfl hk ▸ htree
  have hconceals : d.Conceals o.walk ["p"] := by
    rintro ⟨x, n⟩ hy hnone
    obtain ⟨hx, hn⟩ := hnamed.mem_below_iff.mp hy
    have hlink : n.kind = .link := by
      by_contra hlink
      rw [htree.kind?_pathOf hx hn hlink] at hnone
      cases hnone
    rcases hlinks _ hy hlink with rfl | rfl
    · rw [hb.1] at hnone
      cases hnone
    · exact ⟨["p", "v"], ⟨["v"], rfl⟩, ⟨["c.php"], rfl⟩, by simp, by decide +kernel⟩
  have hl : Locator.ofSource d source = .ok l := htree.ofSource_eq rfl
  have hignores := search_ignoresFollowing d source l o hl htrees
    (.inr fun k hk => htree.eq_of_leadsTo rfl hk ▸ hconceals)
  refine ⟨hl, htrees, .inr fun k hk => htree.eq_of_leadsTo rfl hk ▸ hconceals, hignores, fun follow => ?_⟩
  have hreach : d.Reaches (pathOf ["p"]) o.walk ["p"] ["p", "b.php"] :=
    (hnamed.reaches_iff List.prefix_rfl rfl).mpr ⟨by decide +kernel, .inr ⟨["p", "b.php"],
      (hnamed.mem_inner_iff List.prefix_rfl rfl).mpr ⟨⟨"b.php", rfl⟩, rfl⟩,
      (hnamed.reaches_iff ⟨["b.php"], rfl⟩ rfl).mpr ⟨by decide +kernel, .inl rfl⟩⟩⟩
  exact hignores.linked ["p"] ⟨⟨"/p"⟩, List.mem_singleton_self _, htree.locate_root, hnamed.directory⟩ _ hreach hb.1 follow

/-- A link that leads nowhere ends a search that follows links and aborts at failures. -/
theorem not_ignoresFollowing : ¬ ∀ (d : Disk) (source : Source) (l : Locator) (o : SearchOptions),
    Locator.ofSource d source = .ok l → (∀ k, source.LeadsTo d k → d.HasFileLinks k) →
    ({ l with options := o.following true } : Locator).items d =
      ({ l with options := o.following false } : Locator).items d := by
  intro h
  let d : Disk := ⟨.directory [("p", .directory [("a.php", .file "<?php class A {}".toUTF8),
    ("b.php", .link ⟨"missing.php"⟩)])], []⟩
  let l : Locator := { roots := [⟨⟨"/p"⟩, .directory⟩] }
  have hnamed : d.IsNamed ["p"] := ⟨by decide +kernel, by decide +kernel, by decide +kernel⟩
  have hb : d.lookup .target (pathOf ["p", "b.php"]) = .error .notFound :=
    hnamed.lookup_link (x := ["p"]) List.prefix_rfl "b.php" "missing.php" ⟨"missing.php"⟩ rfl (by decide)
      (by decide +kernel) (by decide +kernel) nofun
  have hb : d.kind? (pathOf ["p", "b.php"]) = none := by rw [kind?, hb]
  have hlinks : ∀ y ∈ d.below ["p"], y.2.kind = .link → y.1 = ["p", "b.php"] := by decide +kernel
  have htree : d.HasFileLinks ["p"] := hnamed.hasFileLinks (by decide +kernel) (by decide +kernel) fun y hy hlink => by
    rw [hlinks y hy hlink]
    exact .inr hb
  have hl : Locator.ofSource d (.directory ⟨"/p"⟩) = .ok l := htree.ofSource_eq rfl
  have hitems := h d _ l {} hl fun k hk => htree.eq_of_leadsTo rfl hk ▸ htree
  -- The search that follows links comes to the link, which it cannot examine.
  obtain ⟨f, hf⟩ : ∃ f, .error f ∈ ({ l with options := ({} : SearchOptions).following true } : Locator).items d := by
    obtain ⟨paths, hpaths⟩ := htree.exists_hasLeaves (({} : SearchOptions).following true).walk
    obtain ⟨cause, hleaf⟩ := (hpaths.failing (pathOf ["p", "b.php"])).mpr
      ⟨["p", "b.php"], rfl, by rw [examines, hb]; rfl,
        (hnamed.comesTo_iff List.prefix_rfl rfl).mpr (.inr ⟨by decide +kernel, ["p", "b.php"],
          (hnamed.mem_inner_iff List.prefix_rfl rfl).mpr ⟨⟨"b.php", rfl⟩, rfl⟩,
          (hnamed.comesTo_iff ⟨["b.php"], rfl⟩ rfl).mpr (.inl rfl)⟩)⟩
    rw [Locator.items_eq]
    exact exists_error_mem_upToFailure
      (failures_ne_nil_of_mem (error_mem_met_iff.mpr ⟨_, List.mem_singleton_self _, .inl hleaf⟩))
  -- The other one comes to files only, and these can be read.
  obtain ⟨paths, hpaths⟩ := htree.exists_hasLeaves (({} : SearchOptions).following false).walk
  rw [hitems] at hf
  obtain ⟨r, hr, hleaf | ⟨hleaf, hread⟩⟩ := Locator.exists_leaf_of_error hf
  · obtain rfl := List.mem_singleton.mp hr
    obtain ⟨x, -, hfail, -⟩ := (hpaths.failing f.path).mp ⟨f.cause, hleaf⟩
    cases hfail
  · obtain rfl := List.mem_singleton.mp hr
    exact hpaths.read_ne_error htree hleaf hread

end

end Disk

end TypeFinder
