import TypeFinder.FileSystem.Disk
import TypeFinder.Proofs.Path.Order
import TypeFinder.Proofs.Path.Parts

/-! Trees of files and directories on a disk. In a plain tree there is nothing but these, and all of them can be read;
    another kind of tree may have links to files in it. A location in a tree and the path of the location say the same:
    the names on the way. -/

namespace TypeFinder

/-! ### Names -/

/-- A name that an entry of a directory may have. -/
structure IsName (s : String) : Prop where
  filler : isFiller s = false
  parent : s ≠ ".."
  slash : '/' ∉ s.toList
  zero : '\x00' ∉ s.toList
  short : s.utf8ByteSize ≤ nameLimit

instance : DecidablePred IsName := fun s =>
  decidable_of_iff (isFiller s = false ∧ s ≠ ".." ∧ '/' ∉ s.toList ∧ '\x00' ∉ s.toList ∧ s.utf8ByteSize ≤ nameLimit)
    ⟨fun ⟨h₁, h₂, h₃, h₄, h₅⟩ => ⟨h₁, h₂, h₃, h₄, h₅⟩, fun ⟨h₁, h₂, h₃, h₄, h₅⟩ => ⟨h₁, h₂, h₃, h₄, h₅⟩⟩

namespace IsName
variable {s : String}

theorem ne_empty (h : IsName s) : s ≠ "" := by
  rintro rfl
  exact absurd h.filler (by decide)

theorem ne_dot (h : IsName s) : s ≠ "." := by
  rintro rfl
  exact absurd h.filler (by decide)

end IsName

/-! ### Nodes -/

namespace DiskNode

mutual

/-- The node and all below it, each with its location from here. -/
def nodes : DiskNode → List (Location × DiskNode)
  | directory entries access => ([], directory entries access) :: nodesOfEntries entries
  | n => [([], n)]

/-- The nodes of these entries and all below. -/
def nodesOfEntries : List (String × DiskNode) → List (Location × DiskNode)
  | [] => []
  | (name, n) :: rest => (n.nodes.map fun (l, m) => (name :: l, m)) ++ nodesOfEntries rest

end

theorem file_ne_link {contents : ByteArray} {access : Access} : (file contents access).kind ≠ .link :=
  fun h => NodeKind.noConfusion h

theorem directory_ne_link {entries : List (String × DiskNode)} {access : Access} :
    (directory entries access).kind ≠ .link :=
  fun h => NodeKind.noConfusion h

/-- The node is a file, or a directory whose entries have different names. -/
def IsOrdinary : DiskNode → Prop
  | file .. => True
  | directory entries _ => (entries.map (·.1)).Nodup ∧ ∀ e ∈ entries, IsName e.1
  | link _ | device _ => False

instance : DecidablePred IsOrdinary
  | file .. => inferInstanceAs (Decidable True)
  | directory entries _ => inferInstanceAs (Decidable ((entries.map (·.1)).Nodup ∧ ∀ e ∈ entries, IsName e.1))
  | link _ | device _ => inferInstanceAs (Decidable False)

/-- The entries of every directory, here and below, have different names. -/
def IsNamed (n : DiskNode) : Prop := ∀ y ∈ n.nodes, y.2.kind = .directory → y.2.IsOrdinary

variable {n m k : DiskNode} {l : Location} {name : String} {entries : List (String × DiskNode)} {access : Access}

theorem mem_nodesOfEntries : (l, m) ∈ nodesOfEntries entries ↔
    ∃ name n rest, (name, n) ∈ entries ∧ (rest, m) ∈ n.nodes ∧ l = name :: rest := by
  induction entries with
  | nil => simp [nodesOfEntries]
  | cons e entries ih =>
    obtain ⟨name, n⟩ := e
    simp only [nodesOfEntries, List.mem_append, List.mem_map, ih, List.mem_cons, Prod.mk.injEq]
    constructor
    · rintro (⟨⟨rest, k⟩, hk, rfl, rfl⟩ | ⟨name', n', rest, hmem, hk, hl⟩)
      · exact ⟨name, n, rest, .inl ⟨rfl, rfl⟩, hk, rfl⟩
      · exact ⟨name', n', rest, .inr hmem, hk, hl⟩
    · rintro ⟨name', n', rest, ⟨rfl, rfl⟩ | hmem, hk, hl⟩
      · exact .inl ⟨(rest, m), hk, hl.symm, rfl⟩
      · exact .inr ⟨name', n', rest, hmem, hk, hl⟩

theorem mem_nodes_nil : ([], m) ∈ n.nodes ↔ n = m := by
  cases n <;> simp [nodes, mem_nodesOfEntries, eq_comm]

theorem mem_nodes_cons : (name :: l, m) ∈ n.nodes ↔
    ∃ entries, n.entries? = some entries ∧ ∃ k, (name, k) ∈ entries ∧ (l, m) ∈ k.nodes := by
  cases n with
  | directory entries =>
    simp only [nodes, List.mem_cons, Prod.mk.injEq, mem_nodesOfEntries, List.cons.injEq]
    constructor
    · rintro (⟨h, -⟩ | ⟨name', k, rest, hmem, hk, rfl, rfl⟩)
      · cases h
      · exact ⟨entries, rfl, k, hmem, hk⟩
    · rintro ⟨_, ⟨⟩, k, hmem, hk⟩
      exact .inr ⟨name, k, l, hmem, hk, rfl, rfl⟩
  | _ => simp [nodes, entries?]

theorem below?_cons (n : DiskNode) (name : String) (l : Location) :
    n.below? (name :: l) = ((n.entries?.bind (List.lookup name)).bind (·.below? l)) := by
  simp only [below?, bind]
  cases n.entries? <;> rfl

theorem below?_append : ∀ (l : Location) {n : DiskNode} {l' : Location},
    n.below? (l ++ l') = (n.below? l).bind (·.below? l')
  | [], _, _ => rfl
  | name :: l, n, l' => by
    rw [List.cons_append, below?_cons, below?_cons]
    simp only [below?_append l, Option.bind_assoc]

theorem lookup_eq_some_iff (h : (entries.map (·.1)).Nodup) : entries.lookup name = some n ↔ (name, n) ∈ entries := by
  rw [List.lookup_eq_some_iff]
  constructor
  · rintro ⟨front, back, rfl, -⟩
    simp
  · intro hmem
    obtain ⟨front, back, rfl⟩ := List.append_of_mem hmem
    refine ⟨front, back, rfl, fun e he => ?_⟩
    rw [List.map_append, List.nodup_append] at h
    exact bne_iff_ne.mpr (h.2.2 e.1 (List.mem_map_of_mem he) name (by simp)).symm

/-! ### Trees -/

theorem IsOrdinary.kind_ne_link (h : n.IsOrdinary) : n.kind ≠ .link := by
  cases n with
  | link target => exact h.elim
  | _ => nofun

theorem IsNamed.ordinary (h : (directory entries access).IsNamed) : (directory entries access).IsOrdinary :=
  h ([], directory entries access) (mem_nodes_nil.mpr rfl) rfl

theorem IsNamed.of_mem (h : (directory entries access).IsNamed) (hn : (name, n) ∈ entries) : n.IsNamed :=
  fun y hy => h (name :: y.1, y.2) (mem_nodes_cons.mpr ⟨entries, rfl, n, hn, hy⟩)

/-- The nodes are what locations lead to. -/
theorem IsNamed.mem_nodes_iff (h : n.IsNamed) : (l, m) ∈ n.nodes ↔ n.below? l = some m := by
  induction l generalizing n with
  | nil => rw [mem_nodes_nil, below?, Option.some_inj]
  | cons name l ih =>
    rw [mem_nodes_cons, below?_cons]
    cases n with
    | directory entries =>
      simp only [entries?, Option.bind_some, Option.bind_eq_some_iff, lookup_eq_some_iff h.ordinary.1]
      constructor
      · rintro ⟨_, ⟨⟩, k, hmem, hk⟩
        exact ⟨k, hmem, (ih (h.of_mem hmem)).mp hk⟩
      · rintro ⟨k, hmem, hk⟩
        exact ⟨entries, rfl, k, hmem, (ih (h.of_mem hmem)).mpr hk⟩
    | _ => simp [entries?]

/-- A location that leads somewhere is made of names. -/
theorem IsNamed.names_of_below? (h : n.IsNamed) (hm : n.below? l = some m) : ∀ s ∈ l, IsName s := by
  induction l generalizing n with
  | nil => exact fun s hs => absurd hs List.not_mem_nil
  | cons name l ih =>
    rw [below?_cons] at hm
    cases n with
    | directory entries =>
      simp only [entries?, Option.bind_some, Option.bind_eq_some_iff, lookup_eq_some_iff h.ordinary.1] at hm
      obtain ⟨k, hmem, hk⟩ := hm
      exact List.forall_mem_cons.mpr ⟨h.ordinary.2 _ hmem, ih (h.of_mem hmem) hk⟩
    | _ => simp [entries?] at hm

end DiskNode

namespace Disk

/-- The nodes at a location and below it, each with its location. -/
def below (d : Disk) (l : Location) : List (Location × DiskNode) :=
  (((d.node? l).map DiskNode.nodes).getD []).map fun (x, n) => (l ++ x, n)

/-- The files at a location and below it, each with its path. -/
def files (d : Disk) (l : Location) : List (Path × ByteArray) :=
  (d.below l).filterMap fun
    | (x, .file contents _) => some (pathOf x, contents)
    | _ => none

/-- The path leads to a file that can be read, or to a directory that can be listed. -/
def opens (d : Disk) (p : Path) : Bool := (d.read p).isOk || (d.list p).isOk

/-- There is a directory at the location, and the entries of every directory in it and below have different names. -/
structure IsNamed (d : Disk) (l : Location) : Prop where
  directory : d.isDirectory l = true
  named : ∀ name ∈ l, IsName name
  ordinary : ∀ y ∈ d.below l, y.2.kind = .directory → y.2.IsOrdinary

/-- There is a directory at the location, and in it and below are files and directories and nothing else. -/
structure IsTree (d : Disk) (l : Location) : Prop where
  directory : d.isDirectory l = true
  named : ∀ name ∈ l, IsName name
  ordinary : ∀ y ∈ d.below l, y.2.IsOrdinary

/-- A tree of which all can be read. -/
structure IsPlain (d : Disk) (l : Location) : Prop extends d.IsTree l where
  opens : ∀ y ∈ d.below l, d.opens (pathOf y.1) = true

/-- There is a directory at the location. Links in it and below lead to files or nowhere, and whatever else there is and
    is led to can be read. -/
structure HasFileLinks (d : Disk) (l : Location) : Prop extends d.IsNamed l where
  opens : ∀ y ∈ d.below l, (y.2.kind = .link → d.kind? (pathOf y.1) = some .file) → d.opens (pathOf y.1) = true
  links : ∀ y ∈ d.below l, y.2.kind = .link → d.kind? (pathOf y.1) = some .file ∨ d.kind? (pathOf y.1) = none

section
variable {d : Disk} {l x : Location} {n : DiskNode} {p : Path} {contents : ByteArray}

theorem node?_append (l t : Location) : d.node? (l ++ t) = (d.node? l).bind (·.below? t) :=
  DiskNode.below?_append l

theorem mem_below_iff_of_node? (h : d.node? l = some n) {y : Location × DiskNode} :
    y ∈ d.below l ↔ ∃ t m, (t, m) ∈ n.nodes ∧ y = (l ++ t, m) := by
  simp [below, h, eq_comm]

namespace IsNamed

theorem exists_entries (h : d.IsNamed l) : ∃ entries access, d.node? l = some (.directory entries access) := by
  have hdirectory := h.directory
  unfold isDirectory at hdirectory
  obtain ⟨n, hn, hkind⟩ := (Option.any_eq_true _ _).mp hdirectory
  cases n with
  | directory entries access => exact ⟨entries, access, hn⟩
  | _ => simp [DiskNode.kind] at hkind

theorem isNamed_node (h : d.IsNamed l) (hn : d.node? l = some n) : n.IsNamed := fun y hy =>
  h.ordinary (l ++ y.1, y.2) ((mem_below_iff_of_node? hn).mpr ⟨y.1, y.2, hy, rfl⟩)

/-- What is below is what the longer locations lead to. -/
theorem mem_below_iff (h : d.IsNamed l) : (x, n) ∈ d.below l ↔ l <+: x ∧ d.node? x = some n := by
  obtain ⟨entries, access, hroot⟩ := h.exists_entries
  have hnamed := h.isNamed_node hroot
  rw [mem_below_iff_of_node? hroot]
  constructor
  · rintro ⟨t, m, hm, heq⟩
    cases heq
    exact ⟨List.prefix_append l t, by rw [node?_append, hroot]; exact hnamed.mem_nodes_iff.mp hm⟩
  · rintro ⟨⟨t, rfl⟩, hx⟩
    rw [node?_append, hroot] at hx
    exact ⟨t, n, hnamed.mem_nodes_iff.mpr hx, rfl⟩

theorem names (h : d.IsNamed l) (hx : l <+: x) (hn : d.node? x = some n) : ∀ s ∈ x, IsName s := by
  obtain ⟨entries, access, hroot⟩ := h.exists_entries
  obtain ⟨t, rfl⟩ := hx
  rw [node?_append, hroot] at hn
  exact List.forall_mem_append.mpr ⟨h.named, (h.isNamed_node hroot).names_of_below? hn⟩

theorem ordinary_of_node? (h : d.IsNamed l) (hx : l <+: x) (hn : d.node? x = some n) (hkind : n.kind = .directory) :
    n.IsOrdinary :=
  h.ordinary _ (h.mem_below_iff.mpr ⟨hx, hn⟩) hkind

end IsNamed

namespace IsTree

theorem isNamed (h : d.IsTree l) : d.IsNamed l := ⟨h.directory, h.named, fun y hy _ => h.ordinary y hy⟩

theorem exists_entries (h : d.IsTree l) : ∃ entries access, d.node? l = some (.directory entries access) :=
  h.isNamed.exists_entries

theorem mem_below_iff (h : d.IsTree l) : (x, n) ∈ d.below l ↔ l <+: x ∧ d.node? x = some n := h.isNamed.mem_below_iff

theorem names (h : d.IsTree l) (hx : l <+: x) (hn : d.node? x = some n) : ∀ s ∈ x, IsName s := h.isNamed.names hx hn

theorem ordinary_of_node? (h : d.IsTree l) (hx : l <+: x) (hn : d.node? x = some n) : n.IsOrdinary :=
  h.ordinary _ (h.mem_below_iff.mpr ⟨hx, hn⟩)

theorem mem_files_iff (h : d.IsTree l) :
    (p, contents) ∈ d.files l ↔ ∃ x access, p = pathOf x ∧ l <+: x ∧ d.node? x = some (.file contents access) := by
  rw [files, List.mem_filterMap]
  constructor
  · rintro ⟨⟨x, n⟩, hmem, heq⟩
    cases n with
    | file contents access =>
      cases heq
      exact ⟨x, access, rfl, h.mem_below_iff.mp hmem⟩
    | _ => cases heq
  · rintro ⟨x, access, rfl, hx⟩
    exact ⟨(x, .file contents access), h.mem_below_iff.mpr hx, rfl⟩

end IsTree

end

end Disk

end TypeFinder
