import TypeFinder.Proofs.Locator.Pipeline
import TypeFinder.Proofs.Locator.Policies

/-! What the looking at a source is worth later. A path is looked at as it was given, and its absolute form is searched.
    In memory the two may be different places, namely where a relative path has been stored. Where they are the same, a
    search finds its roots. -/

namespace TypeFinder
namespace Memory

/-- The roots are in the memory as what they are taken for, so no search misses a place. -/
structure HasRoots (m : Memory) (l : Locator) : Prop where
  kinds : ∀ r ∈ l.roots, m.kind? r.path = some r.kind
  failing : ∀ (o : SearchOptions) (f : Failure), .error f ∈ ({ l with options := o } : Locator).items m →
    f.cause = .permissionDenied

section
variable {m : Memory} {p q : Path} {k : EntryKind} {r : Root} {o : WalkOptions}

/-! ### Paths and their absolute forms -/

theorem absolute_of_isAbsolute (h : p.isAbsolute = true) : absolute p = p := if_pos h

theorem exists_stored_of_file? (h : (m.file? p).isSome = true) : ∃ s ∈ m.stored, s.same p = true := by
  obtain ⟨contents, hc⟩ := Option.isSome_iff_exists.mp h
  obtain ⟨s, hsame, hmem⟩ := file?_eq_some_iff.mp hc
  exact ⟨s, mem_stored_iff.mpr (.inl ⟨contents, hmem⟩), hsame⟩

/-- What is there has something stored under it. -/
theorem exists_stored_of_kind? (h : m.kind? p = some k) : ∃ s ∈ m.stored, s.isUnder p = true := by
  unfold kind? at h
  split at h
  · rename_i hfile
    obtain ⟨s, hs, hsame⟩ := exists_stored_of_file? hfile
    exact ⟨s, hs, Path.isUnder_of_same hsame⟩
  · split at h
    · rename_i hany
      exact List.any_eq_true.mp hany
    · cases h

/-- Where only absolute paths are stored, a relative path refers to nothing, unless it is empty. -/
theorem eq_empty_of_kind? (hstored : ∀ s ∈ m.stored, s.isAbsolute = true) (h : m.kind? p = some k)
    (hrelative : p.isAbsolute = false) : p = ⟨""⟩ := by
  obtain ⟨s, hs, hunder⟩ := exists_stored_of_kind? h
  obtain ⟨rest, hrest⟩ := List.head?_eq_some_iff.mp (Path.isAbsolute_iff_head?.mp (hstored s hs))
  have hpre := Path.isUnder_iff.mp hunder
  refine Path.eq_empty_of_components_eq_nil ?_
  cases hp : p.components with
  | nil => rfl
  | cons c cs =>
    rw [hp, hrest, List.cons_prefix_cons] at hpre
    rw [← Bool.not_eq_true, Path.isAbsolute_iff_head?, hp, hpre.1] at hrelative
    exact absurd rfl hrelative

/-- Where absolute paths are given, or only such are stored, the absolute form refers to the same. -/
theorem kind?_absolute (h : m.kind? p = some k)
    (hplaces : p.isAbsolute = true ∨ (∀ s ∈ m.stored, s.isAbsolute = true) ∧ m.file? ⟨"/"⟩ = none) :
    m.kind? (absolute p) = some k := by
  cases habsolute : p.isAbsolute with
  | true => rwa [absolute_of_isAbsolute habsolute]
  | false =>
    rw [habsolute] at hplaces
    obtain ⟨hstored, hroot⟩ := hplaces.resolve_left nofun
    obtain rfl := eq_empty_of_kind? hstored h habsolute
    -- The empty path means the root, and both are directories.
    have hempty : m.file? ⟨""⟩ = none := by
      rw [Option.eq_none_iff_forall_ne_some]
      intro c hc
      obtain ⟨s, hs, hsame⟩ := exists_stored_of_file? (Option.isSome_of_eq_some hc)
      have hs := Path.isAbsolute_iff_head?.mp (hstored s hs)
      rw [Path.same_iff.mp hsame] at hs
      exact absurd hs (by decide)
    obtain ⟨s, hs, -⟩ := exists_stored_of_kind? h
    have hunder : s.isUnder ⟨"/"⟩ = true := by
      obtain ⟨rest, hrest⟩ := List.head?_eq_some_iff.mp (Path.isAbsolute_iff_head?.mp (hstored s hs))
      have hslash : (⟨"/"⟩ : Path).components = [.root] := by decide
      rw [Path.isUnder_iff, hrest, hslash]
      exact ⟨rest, rfl⟩
    have habsolute : absolute ⟨""⟩ = ⟨"/"⟩ := by decide
    have hdirectory : k = .directory := by
      unfold kind? at h
      rw [hempty] at h
      simp only [Option.isSome_none, Bool.false_eq_true, if_false, Option.ite_none_right_eq_some] at h
      exact (Option.some.inj h.2).symm
    rw [habsolute, kind?, hroot, List.any_eq_true.mpr ⟨s, hs, hunder⟩, hdirectory]
    rfl

/-! ### The search -/

theorem cause_of_read {cause : IoError} (h : m.read p = .error cause) :
    cause = .permissionDenied ∨ m.file? p = none := by
  unfold read at h
  split at h
  · cases h
  · exact .inl (Except.error.inj h).symm
  · rename_i hnone
    exact .inr hnone

/-- A root that is in the memory leads to files that are there, and to failures at closed directories. -/
theorem of_mem_leaves (hkind : m.kind? r.path = some r.kind) (hordinary : r.kind = .file ∨ r.kind = .directory) :
    (∀ f, .error f ∈ r.leaves m o → f.cause = .permissionDenied) ∧
      ∀ p, .ok p ∈ r.leaves m o → (m.file? p).isSome = true := by
  obtain ⟨root, kind⟩ := r
  rcases hordinary with rfl | rfl
  · rw [Root.leaves_of_ne EntryKind.noConfusion]
    refine ⟨by simp, fun p hp => ?_⟩
    obtain rfl := Except.ok.inj (List.mem_singleton.mp hp)
    exact isSome_file?_of_kind? hkind
  · rw [leaves_directory]
    refine ⟨fun f hf => cause_of_error_mem_walk hkind (error_mem_filterMap_leaf?.mp hf), fun p hp => ?_⟩
    obtain ⟨step, hstep, hleaf⟩ := List.mem_filterMap.mp hp
    cases step with
    | error f => cases hleaf
    | ok e =>
      rw [leaf?, Option.ite_none_right_eq_some] at hleaf
      obtain ⟨hfile, hpath⟩ := hleaf
      obtain rfl := Except.ok.inj (Option.some.inj hpath)
      refine isSome_file?_of_kind? (hfile ▸ ?_)
      rcases eq_of_ok_mem_walk hkind hstep with rfl | ⟨q, hq, rfl⟩
      · exact hkind
      · exact kind?_of_mem_below (mem_below_of_mem_visited hq)

/-- The roots of a locator are absolute. Where the paths that were given are, or only such paths are stored and no file
    in place of the root, the memory has them, and no search fails but at what is closed or cannot be read. -/
theorem ofSource_hasRoots (m : Memory) (source : Source) (l : Locator) (hl : Locator.ofSource m source = .ok l) :
    (∀ r ∈ l.roots, r.path.isAbsolute = true) ∧
      ((∀ p ∈ source.paths, p.isAbsolute = true) ∨
          (∀ s ∈ m.stored, s.isAbsolute = true) ∧ m.file? ⟨"/"⟩ = none → m.HasRoots l) := by
  have hgrounds := forall₂_grounds (Locator.rootsOf_of_ofSource hl).1
  refine ⟨fun r hr => isAbsolute_of_mem hgrounds hr, fun hplaces => ?_⟩
  have hroots : ∀ r ∈ l.roots, m.kind? r.path = some r.kind ∧ (r.kind = .file ∨ r.kind = .directory) := by
    intro r hr
    obtain ⟨p, hp, hpath, hkind, hordinary⟩ := exists_mem_of_forall₂ hgrounds hr
    exact ⟨hpath ▸ kind?_absolute hkind (hplaces.imp_left fun h => h p hp), hordinary⟩
  refine ⟨fun r hr => (hroots r hr).1, fun o f hf => ?_⟩
  obtain ⟨r, hr, hleaf | ⟨hleaf, hread⟩⟩ := Locator.exists_leaf_of_error hf
  · exact (of_mem_leaves (hroots r hr).1 (hroots r hr).2).1 f hleaf
  · have hfile := (of_mem_leaves (hroots r hr).1 (hroots r hr).2).2 f.path hleaf
    refine (cause_of_read hread).resolve_right fun hnone => ?_
    rw [hnone] at hfile
    cases hfile

/-- The empty path is taken for the root of the memory, and a file below is found in another spelling. -/
theorem ofSource_hasRoots_empty :
    let m := (empty.insert ⟨"/src/a.php"⟩ "<?php class A {}".toUTF8).insertUnreadableDirectory ⟨"/src/b"⟩
    let source : Source := .entries [⟨""⟩, ⟨"/src//./a.php"⟩]
    let l : Locator := { roots := [⟨⟨"/"⟩, .directory⟩, ⟨⟨"/src//./a.php"⟩, .file⟩] }
    Locator.ofSource m source = .ok l ∧
      ((∀ p ∈ source.paths, p.isAbsolute = true) ∨ (∀ s ∈ m.stored, s.isAbsolute = true) ∧ m.file? ⟨"/"⟩ = none) ∧
      (∀ r ∈ l.roots, r.path.isAbsolute = true) ∧ m.HasRoots l := by
  intro m source l
  have hl : Locator.ofSource m source = .ok l := by decide +kernel
  have hplaces : (∀ p ∈ source.paths, p.isAbsolute = true) ∨
      (∀ s ∈ m.stored, s.isAbsolute = true) ∧ m.file? ⟨"/"⟩ = none := .inr (by decide +kernel)
  obtain ⟨habsolute, hroots⟩ := ofSource_hasRoots m source l hl
  exact ⟨hl, hplaces, habsolute, hroots hplaces⟩

/-- A relative path that has been stored is looked at, but its absolute form is searched, where there is nothing. -/
theorem not_hasRoots_relative :
    let m := empty.insert ⟨"src/a.php"⟩ "<?php class A {}".toUTF8
    let l : Locator := { roots := [⟨⟨"/src"⟩, .directory⟩] }
    Locator.ofSource m (.directory ⟨"src"⟩) = .ok l ∧ m.kind? ⟨"/src"⟩ = none ∧
      l.items m = [.error ⟨⟨"/src"⟩, .noDirectory⟩] := by
  intro m l
  have hkind : m.kind? ⟨"/src"⟩ = none := by decide +kernel
  have hleaves : (⟨⟨"/src"⟩, .directory⟩ : Root).leaves m {} = [.error ⟨⟨"/src"⟩, .noDirectory⟩] := by
    rw [leaves_directory, walk, hkind]
    rfl
  refine ⟨by decide +kernel, hkind, ?_⟩
  rw [Locator.items_eq, met, List.flatMap_singleton]
  show upToFailure (((⟨⟨"/src"⟩, .directory⟩ : Root).leaves m {}).filterMap (meet? m)) = _
  rw [hleaves]
  rfl

end

end Memory

end TypeFinder
