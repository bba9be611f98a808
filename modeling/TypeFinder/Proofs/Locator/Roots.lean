import TypeFinder.FileSystem.Memory
import TypeFinder.Locator
import TypeFinder.Proofs.Disk.Absolute

/-! The roots of a search. Each is the absolute form of a path that was given, with the kind that the path was found to
    have, and they stand in the order in which the paths were given. -/

namespace TypeFinder

/-! ### Roots and paths -/

/-- The paths that a source names, in order. -/
def Source.paths : Source → List Path
  | .directory path => [path]
  | .entries paths => paths

namespace Locator
variable {σ : Type} [FileSystem σ] {fs : σ} {p : Path} {k : EntryKind} {r : Root} {source : Source} {roots : List Root}

theorem resolve_eq_ok_iff : resolve fs p k = .ok r ↔ FileSystem.absolute fs p = .ok r.path ∧ k = r.kind := by
  rw [resolve]
  cases FileSystem.absolute fs p with
  | error e => simp
  | ok q =>
    obtain ⟨path, kind⟩ := r
    simp

/-- An entry has a root where it is a file or a directory that has an absolute form. -/
theorem resolveEntry_eq_ok_iff : resolveEntry fs p = .ok r ↔ FileSystem.absolute fs p = .ok r.path ∧
    FileSystem.kind? fs p = some r.kind ∧ (r.kind = .file ∨ r.kind = .directory) := by
  rw [resolveEntry]
  constructor
  · intro h
    split at h
    · rename_i hk
      obtain ⟨hpath, hr⟩ := resolve_eq_ok_iff.mp h
      exact ⟨hpath, hr ▸ hk, .inl hr.symm⟩
    · rename_i hk
      obtain ⟨hpath, hr⟩ := resolve_eq_ok_iff.mp h
      exact ⟨hpath, hr ▸ hk, .inr hr.symm⟩
    · cases h
  · rintro ⟨hpath, hk, ho | ho⟩
    · rw [hk, ho]
      exact resolve_eq_ok_iff.mpr ⟨hpath, ho.symm⟩
    · rw [hk, ho]
      exact resolve_eq_ok_iff.mpr ⟨hpath, ho.symm⟩

/-- The roots are what the source names, in order. -/
theorem forall₂_of_rootsOf (h : rootsOf fs source = .ok roots) :
    List.Forall₂ (fun p r => FileSystem.absolute fs p = .ok r.path ∧ FileSystem.kind? fs p = some r.kind ∧
      (r.kind = .file ∨ r.kind = .directory)) source.paths roots := by
  unfold rootsOf at h
  split at h
  · split at h
    · rename_i hk
      obtain ⟨r, hr, rfl⟩ := eq_ok_of_map h
      obtain ⟨hpath, hkind⟩ := resolve_eq_ok_iff.mp hr
      exact .cons ⟨hpath, hkind ▸ hk, .inr hkind.symm⟩ .nil
    · cases h
  · cases h
  · exact (mapM_eq_ok_iff.mp h).imp fun _ _ => resolveEntry_eq_ok_iff.mp

/-- A locator has the roots of its source, and the options that it starts with. -/
theorem rootsOf_of_ofSource {l : Locator} (h : ofSource fs source = .ok l) :
    rootsOf fs source = .ok l.roots ∧ l = { roots := l.roots } := by
  obtain ⟨roots, hroots, rfl⟩ := eq_ok_of_map h
  exact ⟨hroots, rfl⟩

theorem rootsOf_entries {paths : List Path} (hne : paths ≠ []) :
    rootsOf fs (.entries paths) = paths.mapM (resolveEntry fs) := by
  cases paths with
  | nil => exact absurd rfl hne
  | cons => rfl

/-- Entries are taken where there are any and each has a root. -/
theorem ofSource_entries_eq_ok_iff {paths : List Path} : ofSource fs (.entries paths) = .ok { roots } ↔
    paths ≠ [] ∧ List.Forall₂ (fun p r => resolveEntry fs p = .ok r) paths roots := by
  constructor
  · intro h
    obtain ⟨hroots, -⟩ := rootsOf_of_ofSource h
    have hne : paths ≠ [] := by
      rintro rfl
      cases hroots
    rw [rootsOf_entries hne] at hroots
    exact ⟨hne, mapM_eq_ok_iff.mp hroots⟩
  · rintro ⟨hne, h⟩
    rw [ofSource, rootsOf_entries hne, mapM_eq_ok_iff.mpr h]
    rfl

/-- A directory that is named in its absolute form is the one root. -/
theorem ofSource_eq (hsource : source.paths = [p])
    (hkind : FileSystem.kind? fs p = some .directory) (habsolute : FileSystem.absolute fs p = .ok p) :
    ofSource fs source = .ok { roots := [⟨p, .directory⟩] } := by
  cases source with
  | directory q =>
    obtain rfl : q = p := List.singleton_inj.mp hsource
    have hroot : resolve fs q .directory = .ok ⟨q, .directory⟩ := resolve_eq_ok_iff.mpr ⟨habsolute, rfl⟩
    rw [ofSource, rootsOf, hkind, if_pos rfl, hroot]
    rfl
  | entries paths =>
    obtain rfl : paths = [p] := hsource
    have hentry : resolveEntry fs p = .ok ⟨p, .directory⟩ := resolveEntry_eq_ok_iff.mpr ⟨habsolute, hkind, .inr rfl⟩
    exact ofSource_entries_eq_ok_iff.mpr ⟨List.cons_ne_nil _ _, .cons hentry .nil⟩

end Locator

/-! ### In memory -/

namespace Memory
variable {m : Memory} {p : Path} {r : Root} {source : Source} {roots : List Root}

theorem isAbsolute_absolute (p : Path) : (absolute p).isAbsolute = true := by
  unfold absolute Path.join
  split
  · assumption
  · have hslash : (⟨"/"⟩ : Path).child p.text = ⟨"/" ++ p.text⟩ := rfl
    rw [hslash, Path.isAbsolute, String.toList_append]
    rfl

/-- A root is the absolute form of what was given, with the kind that this had. -/
def Grounds (m : Memory) (p : Path) (r : Root) : Prop :=
  r.path = absolute p ∧ m.kind? p = some r.kind ∧ (r.kind = .file ∨ r.kind = .directory)

/-- The roots are what the source names, in order. -/
theorem forall₂_grounds (h : Locator.rootsOf m source = .ok roots) : List.Forall₂ m.Grounds source.paths roots :=
  (Locator.forall₂_of_rootsOf h).imp fun _ _ ⟨hpath, hkind⟩ => ⟨(Except.ok.inj hpath).symm, hkind⟩

theorem isAbsolute_of_mem {paths : List Path} (h : List.Forall₂ m.Grounds paths roots) (hr : r ∈ roots) :
    r.path.isAbsolute = true := by
  obtain ⟨p, -, hpr⟩ := exists_mem_of_forall₂ h hr
  exact hpr.1 ▸ isAbsolute_absolute p

end Memory

/-! ### On the disk -/

section
variable {d : Disk}

/-- A root is the absolute form of a path that is a file or a directory. -/
structure Disk.Grounds (d : Disk) (p : Path) (r : Root) : Prop where
  path : d.absolute p = .ok r.path
  kind : d.kind? p = some r.kind
  ordinary : r.kind = .file ∨ r.kind = .directory

/-- A path that refers to something leads to a location. -/
theorem Disk.exists_location {p : Path} {k : EntryKind} (h : d.kind? p = some k) :
    ∃ l n, d.locate .target p = .ok l ∧ d.at? l = some n ∧ n.kind.entryKind = k := by
  unfold Disk.kind? at h
  split at h
  · rename_i n hlookup
    obtain ⟨l, hl, hn⟩ := bind_eq_ok hlookup
    split at hn
    · rename_i m hm
      obtain rfl := Except.ok.inj hn
      exact ⟨l, m, hl, hm, Option.some.inj h⟩
    · cases hn
  · cases h

/-- Paths have roots where each is that of a file or a directory and has an absolute form. -/
theorem Disk.exists_forall₂_grounds {ps : List Path}
    (hkind : ∀ p ∈ ps, d.kind? p = some .file ∨ d.kind? p = some .directory)
    (habsolute : ∀ p ∈ ps, ∃ q, d.absolute p = .ok q) : ∃ roots, List.Forall₂ d.Grounds ps roots := by
  induction ps with
  | nil => exact ⟨[], .nil⟩
  | cons p ps ih =>
    obtain ⟨hp, hps⟩ := List.forall_mem_cons.mp hkind
    obtain ⟨⟨q, hq⟩, hqs⟩ := List.forall_mem_cons.mp habsolute
    obtain ⟨roots, hroots⟩ := ih hps hqs
    rcases hp with hp | hp
    · exact ⟨⟨q, .file⟩ :: roots, .cons ⟨hq, hp, .inl rfl⟩ hroots⟩
    · exact ⟨⟨q, .directory⟩ :: roots, .cons ⟨hq, hp, .inr rfl⟩ hroots⟩

theorem Disk.Grounds.found {p : Path} {r : Root} (h : d.Grounds p r) :
    d.kind? p = some .file ∨ d.kind? p = some .directory := by
  rw [h.kind]
  exact h.ordinary.imp (congrArg some) (congrArg some)

/-- What is there by itself, and can be gone to, has the path of its location for its root. -/
theorem Disk.IsNamed.grounds {l x : Location} {n : DiskNode} (h : d.IsNamed l) (hx : l <+: x) (hreach : d.reach x = .ok n)
    (hkind : n.kind = .file ∨ n.kind = .directory) :
    d.Grounds (Disk.pathOf x) ⟨Disk.pathOf x, n.kind.entryKind⟩ := by
  have hlink : n.kind ≠ .link := fun hlink => by rw [hlink] at hkind; rcases hkind with h | h <;> cases h
  refine ⟨Disk.absolute_pathOf (h.names hx (Disk.node?_of_reach hreach)) hreach hlink, ?_, ?_⟩
  · rw [Disk.kind?, h.lookup hx hreach hlink]
  · exact hkind.imp (congrArg NodeKind.entryKind) (congrArg NodeKind.entryKind)

theorem Disk.grounds_iff {p : Path} {r : Root} : d.Grounds p r ↔ FileSystem.absolute d p = .ok r.path ∧
    FileSystem.kind? d p = some r.kind ∧ (r.kind = .file ∨ r.kind = .directory) := by
  have habsolute : FileSystem.absolute d p = .ok r.path ↔ d.absolute p = .ok r.path :=
    ⟨eq_ok_of_mapError, congrArg (Except.mapError IoError.os)⟩
  exact ⟨fun h => ⟨habsolute.mpr h.path, h.kind, h.ordinary⟩, fun ⟨h₁, h₂, h₃⟩ => ⟨habsolute.mp h₁, h₂, h₃⟩⟩

theorem Disk.resolveEntry_eq_ok_iff {p : Path} {r : Root} : Locator.resolveEntry d p = .ok r ↔ d.Grounds p r :=
  Locator.resolveEntry_eq_ok_iff.trans Disk.grounds_iff.symm

/-- The roots are what the source names, in order. -/
theorem Disk.forall₂_grounds {source : Source} {roots : List Root} (h : Locator.rootsOf d source = .ok roots) :
    List.Forall₂ d.Grounds source.paths roots :=
  (Locator.forall₂_of_rootsOf h).imp fun _ _ => Disk.grounds_iff.mpr

/-- A root is the location that the path leads to. -/
theorem Disk.Grounds.exists_location {p : Path} {r : Root} (h : d.Grounds p r) :
    ∃ l, d.locate .target p = .ok l ∧ r.path = Disk.pathOf l ∧ (r.kind = .directory ↔ d.isDirectory l = true) := by
  obtain ⟨l, n, hl, hat, hkind⟩ := Disk.exists_location h.kind
  obtain ⟨hpath, hthere⟩ := Disk.eq_of_absolute hl h.path
  obtain ⟨m, hn⟩ := Option.isSome_iff_exists.mp hthere
  rw [Disk.at?, hn] at hat
  obtain rfl : m = n := Option.some.inj hat
  refine ⟨l, hl, hpath, ?_⟩
  rw [← hkind, Disk.isDirectory, hn]
  cases m <;> simp [DiskNode.kind, NodeKind.entryKind]

end

end TypeFinder
