import TypeFinder.Proofs.Disk.Walk
import TypeFinder.Proofs.Memory.Walk

/-! A plain tree copied into memory. The directories that the memory sees are those above its files, so it has the
    same files in the same directories as the disk, and lacks only the directories that hold no file. -/

namespace TypeFinder
namespace Memory

/-- The memory holds under the location the files that the disk holds there, under the same paths, and nothing else. -/
structure Holds (m : Memory) (d : Disk) (l : Location) : Prop where
  files : (m.files.toList.filter fun f => f.1.isUnder (Disk.pathOf l)).Perm
    ((d.files l).map fun f => (f.1, some f.2))
  closed : ∀ p, p.isUnder (Disk.pathOf l) = true → m.isClosed p = false

namespace Holds

section
variable {m : Memory} {d : Disk} {l x y : Location} {n : DiskNode} {p : Path} {c : Option ByteArray}
  {contents : ByteArray} {access : Access} {o : WalkOptions}

theorem mem_files_iff (h : d.IsPlain l) (hm : m.Holds d l) :
    (p, c) ∈ m.files.toList ∧ p.isUnder (Disk.pathOf l) = true ↔
      ∃ x contents access, p = Disk.pathOf x ∧ c = some contents ∧ l <+: x ∧
        d.node? x = some (.file contents access) := by
  have hmem := hm.files.mem_iff (a := (p, c))
  rw [List.mem_filter, List.mem_map] at hmem
  rw [hmem]
  constructor
  · rintro ⟨⟨q, contents⟩, hq, heq⟩
    cases heq
    obtain ⟨x, access, rfl, hx⟩ := h.mem_files_iff.mp hq
    exact ⟨x, contents, access, rfl, rfl, hx⟩
  · rintro ⟨x, contents, access, rfl, rfl, hx⟩
    exact ⟨(Disk.pathOf x, contents), h.mem_files_iff.mpr ⟨x, access, rfl, hx⟩, rfl⟩

/-- What is stored under the location are the paths of the files. -/
theorem mem_stored_iff (h : d.IsPlain l) (hm : m.Holds d l) :
    p ∈ m.stored ∧ p.isUnder (Disk.pathOf l) = true ↔
      ∃ x contents access, p = Disk.pathOf x ∧ l <+: x ∧ d.node? x = some (.file contents access) := by
  rw [Memory.mem_stored_iff]
  constructor
  · rintro ⟨⟨c, hmem⟩ | hclosed, hunder⟩
    · obtain ⟨x, contents, access, hp, -, hx⟩ := (hm.mem_files_iff h).mp ⟨hmem, hunder⟩
      exact ⟨x, contents, access, hp, hx⟩
    · have hnot : m.closed.contains p = false := hm.closed p hunder
      rw [Std.TreeSet.contains_iff_mem.mpr (Std.TreeSet.mem_of_mem_toList hclosed)] at hnot
      cases hnot
  · rintro ⟨x, contents, access, hp, hx⟩
    obtain ⟨hmem, hunder⟩ := (hm.mem_files_iff h (c := some contents)).mpr ⟨x, contents, access, hp, rfl, hx⟩
    exact ⟨.inl ⟨_, hmem⟩, hunder⟩

theorem file?_iff (h : d.IsPlain l) (hm : m.Holds d l) (hx : l <+: x) (hn : d.node? x = some n) :
    m.file? (Disk.pathOf x) = some c ↔ ∃ contents access, c = some contents ∧ n = .file contents access := by
  have hnames := h.names hx hn
  rw [file?_eq_some_iff]
  constructor
  · rintro ⟨p, hsame, hmem⟩
    have hunder := Path.isUnder_trans (Path.isUnder_of_same hsame) ((Disk.isUnder_pathOf hnames h.named).mpr hx)
    obtain ⟨z, contents, access, rfl, rfl, hz, hzn⟩ := (hm.mem_files_iff h).mp ⟨hmem, hunder⟩
    obtain rfl := Disk.eq_of_same (h.names hz hzn) hnames hsame
    exact ⟨contents, access, rfl, Option.some.inj (hn.symm.trans hzn)⟩
  · rintro ⟨contents, access, rfl, rfl⟩
    obtain ⟨hmem, -⟩ := (hm.mem_files_iff h).mpr ⟨x, contents, access, rfl, rfl, hx, hn⟩
    exact ⟨_, Path.same_self _, hmem⟩

/-- A path that the walk comes across is that of a location. -/
theorem exists_of_mem_below (h : d.IsPlain l) (hm : m.Holds d l) (hp : p ∈ m.below (Disk.pathOf l)) :
    ∃ x n, p = Disk.pathOf x ∧ l <+: x ∧ d.node? x = some n := by
  obtain ⟨s, hs, hp⟩ := List.mem_flatMap.mp (List.mem_of_find?_eq_some (mem_below_iff.mp hp))
  simp only [List.mem_filter, Bool.and_eq_true] at hs
  obtain ⟨x, contents, access, rfl, hx, hn⟩ := (hm.mem_stored_iff h).mp ⟨hs.1, hs.2.1⟩
  rcases List.mem_cons.mp hp with rfl | hp
  · exact ⟨x, _, rfl, hx, hn⟩
  · obtain ⟨i, hi, -, rfl⟩ := Disk.exists_take_of_mem_between (h.names hx hn) h.named hp
    have hthere := Disk.node?_of_prefix (Option.isSome_of_eq_some hn) (List.take_prefix i x)
    obtain ⟨n, hn⟩ := Option.isSome_iff_exists.mp hthere
    exact ⟨x.take i, n, rfl, List.prefix_take_iff.mpr ⟨hx, Nat.le_of_lt hi⟩, hn⟩

theorem isBelow_pathOf (h : d.IsPlain l) (hx : l <+: x) (hn : d.node? x = some n) (hyx : y <+: x) :
    (Disk.pathOf x).IsBelow (Disk.pathOf y) ↔ x ≠ y := by
  have hnames := h.names hx hn
  have hnamesy : ∀ s ∈ y, IsName s := fun s hs => hnames s (hyx.subset hs)
  rw [Path.IsBelow, Disk.isUnder_pathOf hnames hnamesy, Bool.eq_false_iff, ne_eq, ne_eq]
  refine ⟨fun hbelow heq => hbelow.2 (heq ▸ Path.same_self _), fun hne => ⟨hyx, fun hsame => hne ?_⟩⟩
  exact Disk.eq_of_same hnames hnamesy hsame

/-- A place above a file is written as the path of its location. -/
theorem exists_spelling (h : d.IsPlain l) (hm : m.Holds d l) (hx : l <+: x)
    (hn : d.node? x = some (.file contents access)) (hp : p.IsBelow (Disk.pathOf l)) (hxp : (Disk.pathOf x).isUnder p = true) :
    ∃ y, m.spelling (Disk.pathOf l) p = Disk.pathOf y ∧ (Disk.pathOf y).same p = true ∧ l <+: y ∧ y <+: x := by
  have hstored := ((hm.mem_stored_iff h).mpr ⟨x, contents, access, rfl, hx, hn⟩).1
  obtain ⟨hmem, hsame⟩ := spelling_mem_below hp hstored hxp
  obtain ⟨y, k, hy, hly, hk⟩ := hm.exists_of_mem_below h hmem
  rw [hy] at hsame
  have hunder := Path.isUnder_trans hxp (Path.isUnder_of_same (Path.same_symm hsame))
  exact ⟨y, hy, hsame, hly, (Disk.isUnder_pathOf (h.names hx hn) (h.names hly hk)).mp hunder⟩

theorem spelling_pathOf (h : d.IsPlain l) (hm : m.Holds d l) (hx : l <+: x)
    (hn : d.node? x = some (.file contents access)) (hy : l <+: y) (hyx : y <+: x) (hne : y ≠ l) :
    m.spelling (Disk.pathOf l) (Disk.pathOf y) = Disk.pathOf y := by
  obtain ⟨k, hk⟩ := Option.isSome_iff_exists.mp (Disk.node?_of_prefix (Option.isSome_of_eq_some hn) hyx)
  obtain ⟨z, hz, hsame, hlz, hzx⟩ := hm.exists_spelling h hx hn ((isBelow_pathOf h hy hk hy).mpr hne)
    ((Disk.isUnder_pathOf (h.names hx hn) (h.names hy hk)).mpr hyx)
  have hnames : ∀ s ∈ z, IsName s := fun s hs => h.names hx hn s (hzx.subset hs)
  rw [hz, Disk.eq_of_same hnames (h.names hy hk) hsame]

theorem file?_of_directory (h : d.IsPlain l) (hm : m.Holds d l) (hx : l <+: x) (hn : d.node? x = some n)
    (hkind : n.kind = .directory) : m.file? (Disk.pathOf x) = none := by
  cases hf : m.file? (Disk.pathOf x) with
  | none => rfl
  | some c =>
    obtain ⟨contents, access, -, rfl⟩ := (hm.file?_iff h hx hn).mp hf
    cases hkind

theorem prunes_pathOf (h : d.IsPlain l) (hm : m.Holds d l) (hx : l <+: x) (hn : d.node? x = some n)
    (hkind : n.kind = .directory) :
    m.prunes (Disk.pathOf l) o (Disk.pathOf x) = !o.allows (Disk.pathOf l) (Disk.pathOf x) := by
  have hclosed := hm.closed (Disk.pathOf x) ((Disk.isUnder_pathOf (h.names hx hn) h.named).mpr hx)
  have hfile := hm.file?_of_directory h hx hn hkind
  cases hallow : o.allows (Disk.pathOf l) (Disk.pathOf x) <;> simp [prunes, hallow, hclosed, hfile]

/-- The walk in memory visits a file when the walk on the disk does. -/
theorem mem_visited_iff (h : d.IsPlain l) (hm : m.Holds d l) (hx : l <+: x)
    (hn : d.node? x = some (.file contents access)) :
    Disk.pathOf x ∈ m.visited (Disk.pathOf l) o ↔ d.Reaches (Disk.pathOf l) o l x := by
  have hne : x ≠ l := by
    rintro rfl
    obtain ⟨entries, access, hroot⟩ := h.exists_entries
    cases hn.symm.trans hroot
  have hself : Disk.pathOf x ∈ m.visited (Disk.pathOf l) o ↔
      ∃ q ∈ m.visited (Disk.pathOf l) o, q.same (Disk.pathOf x) = true := by
    refine ⟨fun hmem => ⟨_, hmem, Path.same_self _⟩, ?_⟩
    rintro ⟨q, hq, hsame⟩
    obtain ⟨z, k, rfl, hz, hk⟩ := hm.exists_of_mem_below h (mem_below_of_mem_visited hq)
    rwa [← Disk.eq_of_same (h.names hz hk) (h.names hx hn) hsame]
  rw [hself, exists_mem_visited_iff ((isBelow_pathOf h hx hn hx).mpr hne),
    hm.spelling_pathOf h hx hn hx List.prefix_rfl hne]
  have hthere := Option.isSome_of_eq_some hn
  have hnames := h.names hx hn
  constructor
  · rintro ⟨-, -, hallow, hnone⟩
    refine ⟨hx, hthere, fun y hy hyx => ?_⟩
    by_cases hyl : y = l
    · rw [hyl, WalkOptions.allows, Path.same_self, Bool.true_or]
    by_cases hxy : y = x
    · rwa [hxy]
    obtain ⟨entries, _, hk⟩ := Disk.isDirectory_of_prefix hthere hyx hxy
    have hprunes := hnone (Disk.pathOf y) ((isBelow_pathOf h hy hk hy).mpr hyl)
      ((isBelow_pathOf h hx hn hyx).mpr (Ne.symm hxy))
    rwa [hm.spelling_pathOf h hx hn hy hyx hyl, hm.prunes_pathOf h hy hk rfl, Bool.not_eq_false'] at hprunes
  · intro hreach
    have hclosed := hm.closed (Disk.pathOf l) (Path.isUnder_of_same (Path.same_self _))
    refine ⟨⟨Disk.pathOf x, ((hm.mem_stored_iff h).mpr ⟨x, contents, access, rfl, hx, hn⟩).1,
      Path.isUnder_of_same (Path.same_self _)⟩, hclosed, hreach.allowed x hx List.prefix_rfl, fun a ha hxa => ?_⟩
    obtain ⟨y, hy, hsame, hly, hyx⟩ := hm.exists_spelling h hx hn ha hxa.1
    have hxy : x ≠ y := (isBelow_pathOf h hx hn hyx).mp
      ((Path.isBelow_congr (Path.same_self _) (Path.same_symm hsame)).mp hxa)
    obtain ⟨entries, _, hk⟩ := Disk.isDirectory_of_prefix hthere hyx (Ne.symm hxy)
    rw [hy, hm.prunes_pathOf h hly hk rfl, hreach.allowed y hly hyx]
    rfl

end

end Holds

end Memory
end TypeFinder
