import Mathlib.Data.List.Basic
import TypeFinder.FileSystem.Disk.Walk
import TypeFinder.Proofs.Disk.Location
import TypeFinder.Proofs.Results

/-! Looking into a plain tree. The path of a location leads to it, name by name, and what the disk says of the path is
    what stands there. -/

namespace TypeFinder

/-! ### Going straight down -/

namespace DiskNode
variable {n m : DiskNode} {name : String} {x rest : Location} {entries : List (String × DiskNode)}

theorem eq_directory (h : n.entries? = some entries) : n = directory entries n.access := by
  cases n <;> cases h
  rfl

theorem entriesFor_eq (h : n.entries? = some entries) (hname : name ≠ "") :
    n.entriesFor name = n.access.search.map fun _ => entries := by
  rw [eq_directory h]
  exact if_neg hname

theorem entries?_of_entriesFor (h : n.entriesFor name = .ok entries) : n.entries? = some entries := by
  cases n with
  | directory entries' access =>
    rw [entriesFor] at h
    split at h
    · exact congrArg some (Except.ok.inj h)
    · obtain ⟨_, -, rfl⟩ := eq_ok_of_map h
      rfl
  | _ => cases h

theorem exists_of_reach_cons (h : n.reach (name :: rest) = .ok m) :
    ∃ entries k, n.entriesFor name = .ok entries ∧ entries.lookup name = some k ∧ k.reach rest = .ok m := by
  obtain ⟨entries, hentries, h⟩ := bind_eq_ok h
  refine ⟨entries, ?_⟩
  split at h
  · cases h
  · split at h
    · cases h
    · rename_i k hk
      exact ⟨k, hentries, hk, h⟩

theorem reach_cons {k : DiskNode} (hname : IsName name) (hentries : n.entriesFor name = .ok entries)
    (hlookup : entries.lookup name = some k) (rest : Location) : n.reach (name :: rest) = k.reach rest := by
  rw [reach, hentries]
  simp [bind, Except.bind, Nat.not_lt.mpr hname.short, hlookup]

theorem reach_append (n : DiskNode) (x rest : Location) : n.reach (x ++ rest) = n.reach x >>= (·.reach rest) := by
  induction x generalizing n with
  | nil => rfl
  | cons name x ih =>
    rw [List.cons_append, reach, reach]
    cases n.entriesFor name with
    | error e => rfl
    | ok entries =>
      simp only [bind, Except.bind]
      split
      · rfl
      · split
        · rfl
        · exact ih _

/-- What is gone to straight down is what is there. -/
theorem below?_of_reach (h : n.reach x = .ok m) : n.below? x = some m := by
  induction x generalizing n with
  | nil => exact congrArg some (Except.ok.inj h)
  | cons name rest ih =>
    obtain ⟨entries, k, hentries, hk, h⟩ := exists_of_reach_cons h
    rw [below?_cons, entries?_of_entriesFor hentries, Option.bind_some, hk]
    exact ih h

end DiskNode

namespace Disk

section
variable {d : Disk} {last : LastName} {links : Nat} {t : Trail} {l x : Location} {n m : DiskNode} {p : Path}
  {contents : ByteArray} {access : Access}

theorem node?_of_reach (h : d.reach x = .ok n) : d.node? x = some n := by
  unfold reach at h
  split at h
  · exact DiskNode.below?_of_reach h
  · cases h

theorem size_lt_of_reach (h : d.reach x = .ok n) : (pathOf x).text.utf8ByteSize < pathLimit := by
  unfold reach at h
  split at h
  · assumption
  · cases h

theorem reach_of_isOk (h : (d.reach x).isOk = true) (hn : d.node? x = some n) : d.reach x = .ok n := by
  cases hreach : d.reach x with
  | error e => rw [hreach] at h; cases h
  | ok m => rw [← Option.some.inj ((node?_of_reach hreach).symm.trans hn)]

/-! ### Names that are in the tree -/

theorem location_cons (name : String) (n : DiskNode) (t : Trail) :
    Trail.location ((name, n) :: t) = t.location ++ [name] := by
  simp [Trail.location]

/-- Names that are in the tree lead on to the node at their end, if the directories on the way can be searched. -/
theorem exists_resolve_append (hx : ∀ s ∈ x, IsName s) (hn : (d.nodeOf t).below? x = some n) (hlink : n.kind ≠ .link) :
    ∃ t', d.nodeOf t' = n ∧ t'.location = t.location ++ x ∧ ∀ last links names, names ≠ [""] →
      d.resolve last links t (x ++ names) = (d.nodeOf t).reach x >>= fun _ => d.resolve last links t' names := by
  induction x generalizing t with
  | nil => exact ⟨t, Option.some.inj hn, (List.append_nil _).symm, fun _ _ _ _ => rfl⟩
  | cons name rest ih =>
    obtain ⟨hname, hrest⟩ := List.forall_mem_cons.mp hx
    rw [DiskNode.below?_cons, Option.bind_eq_some_iff] at hn
    obtain ⟨k, hk, hn⟩ := hn
    obtain ⟨entries, hentries, hk⟩ := Option.bind_eq_some_iff.mp hk
    obtain ⟨t', hnode, hlocation, hstep⟩ := ih (t := (name, k) :: t) hrest hn
    refine ⟨t', hnode, ?_, fun last links names hnames => ?_⟩
    · rw [hlocation, location_cons, List.append_assoc]
      rfl
    have hlast : rest ++ names ≠ [""] := by
      cases rest with
      | nil => exact hnames
      | cons s rest => exact fun heq => (hrest s List.mem_cons_self).ne_empty (List.cons.inj heq).1
    rw [List.cons_append, resolve, DiskNode.reach, DiskNode.entriesFor_eq hentries hname.ne_empty]
    cases (d.nodeOf t).access.search with
    | error e => rfl
    | ok _ =>
      simp only [Except.map, bind, Except.bind, hname.ne_empty, hname.ne_dot, hname.parent, hlast,
        Nat.not_lt.mpr hname.short, hk, false_or, false_and, if_false]
      -- A link on the way has nothing below it, and the last node is none.
      cases k with
      | link target =>
        cases rest with
        | nil => cases hn; exact absurd rfl hlink
        | cons => cases hn
      | _ => exact hstep last links names hnames

/-- Names that are in the tree lead to their location, if the directories on the way can be searched. -/
theorem resolve_eq_of_below? (hx : ∀ s ∈ x, IsName s) (hn : (d.nodeOf t).below? x = some n) (hlink : n.kind ≠ .link) :
    d.resolve last links t x = ((d.nodeOf t).reach x).map fun _ => t.location ++ x := by
  obtain ⟨t', -, hlocation, hresolve⟩ := exists_resolve_append hx hn hlink
  have hresolve := hresolve last links [] nofun
  rw [List.append_nil] at hresolve
  rw [hresolve]
  cases (d.nodeOf t).reach x with
  | error e => rfl
  | ok m => simp only [bind, Except.bind, Except.map, resolve, hlocation]

section
variable {target : Path} {entries : List (String × DiskNode)} {name : String} {names : List String}

/-- A link is resolved from the directory that it is in, unless it is absolute. -/
theorem resolve_link (hname : IsName name) (hentries : (d.nodeOf t).entriesFor name = .ok entries)
    (hlookup : entries.lookup name = some (.link target)) :
    d.resolve .target (links + 1) t (name :: names) =
      d.resolve .target links (if target.isAbsolute then [] else t) (target.names ++ names) := by
  rw [resolve, hentries]
  simp [hname.ne_empty, hname.ne_dot, hname.parent, Nat.not_lt.mpr hname.short, hlookup]

theorem resolve_missing (hname : IsName name) (hentries : (d.nodeOf t).entriesFor name = .ok entries)
    (hlookup : entries.lookup name = none) : d.resolve .target links t [name] = .error .notFound := by
  rw [resolve, hentries]
  simp [hname.ne_empty, hname.ne_dot, hname.parent, Nat.not_lt.mpr hname.short, hlookup]

end

theorem node?_concat {entries : List (String × DiskNode)} (hn : d.node? x = some (.directory entries access))
    (name : String) : d.node? (x ++ [name]) = entries.lookup name := by
  rw [node?_append, hn, Option.bind_some, DiskNode.below?_cons, DiskNode.entries?, Option.bind_some]
  exact Option.bind_fun_some _

/-! ### Paths of locations -/

theorem locate_eq_resolveFromStart (htext : p.text.isEmpty = false) (hsize : p.text.utf8ByteSize < pathLimit)
    (hzero : p.holdsZero = false) : d.locate last p = d.resolveFromStart last p p.names := by
  rw [locate, hzero, htext, if_neg Bool.false_ne_true, if_neg Bool.false_ne_true, if_pos hsize]

/-- An absolute path is resolved from the root of the disk. -/
theorem locate_eq_resolve (hsize : p.text.utf8ByteSize < pathLimit) (hzero : p.holdsZero = false)
    (habsolute : p.isAbsolute = true) : d.locate last p = d.resolve last linkLimit [] p.names := by
  have htext : p.text.isEmpty = false := by
    rw [Bool.eq_false_iff, ne_eq, String.isEmpty_iff]
    intro hempty
    rw [Path.isAbsolute, hempty] at habsolute
    cases habsolute
  rw [locate_eq_resolveFromStart htext hsize hzero, resolveFromStart, if_pos habsolute]

/-- A path with a dot in front is resolved from the current directory. -/
theorem locate_dot {entries : List (String × DiskNode)} {names : List String} (hsize : p.text.utf8ByteSize < pathLimit)
    (hzero : p.holdsZero = false) (hrelative : p.isAbsolute = false) (hnames : p.names = "." :: names)
    (hentries : (d.nodeOf d.here).entriesFor "." = .ok entries) :
    d.locate last p = d.resolve last linkLimit d.here names := by
  have htext : p.text.isEmpty = false := by
    rw [Bool.eq_false_iff, ne_eq, String.isEmpty_iff]
    intro hempty
    have hnone : p.names = [] := by
      rw [Path.names, Path.segments, hempty]
      decide
    cases hnone.symm.trans hnames
  rw [locate_eq_resolveFromStart htext hsize hzero, resolveFromStart, hrelative, hnames, resolve]
  simp [hentries]

/-- The path of a location leads there, if it is short and the directories on the way can be searched. -/
theorem locate_pathOf_eq (hx : ∀ s ∈ x, IsName s) (hn : d.node? x = some n) (hlink : n.kind ≠ .link)
    (hroot : x = [] → n.kind = .directory) : d.locate last (pathOf x) = (d.reach x).map fun _ => x := by
  by_cases hsize : (pathOf x).text.utf8ByteSize < pathLimit
  · rw [locate_eq_resolve hsize (holdsZero_pathOf hx) (isAbsolute_pathOf x), names_pathOf hx, reach, if_pos hsize]
    split
    · rename_i hnil
      subst hnil
      obtain rfl : d.root = n := Option.some.inj hn
      have hnode : d.nodeOf [] = d.root := rfl
      cases hd : d.root with
      | directory entries access =>
        rw [resolve, hnode, hd]
        simp [DiskNode.entriesFor, resolve, Trail.location, DiskNode.reach, Except.map]
      | _ => simp [hd, DiskNode.kind] at hroot
    · exact resolve_eq_of_below? (t := []) hx hn hlink
  · have htext : (pathOf x).text.isEmpty = false := by simp [pathOf]
    rw [locate, holdsZero_pathOf hx, htext, if_neg Bool.false_ne_true, if_neg Bool.false_ne_true, if_neg hsize, reach,
      if_neg hsize]
    rfl

/-- A link in the root to a directory leads on to what is below that, however long the path of this is. -/
theorem locate_link {entries : List (String × DiskNode)} {name : String} {rest : Location} (hname : IsName name)
    (hentries : d.root.entriesFor name = .ok entries) (hlookup : entries.lookup name = some (.link (pathOf x)))
    (hne : x ≠ []) (hx : ∀ s ∈ x ++ rest, IsName s) (hreach : d.root.reach (x ++ rest) = .ok n) (hlink : n.kind ≠ .link)
    (hsize : (pathOf (name :: rest)).text.utf8ByteSize < pathLimit) :
    d.locate .target (pathOf (name :: rest)) = .ok (x ++ rest) := by
  have hnames : ∀ s ∈ name :: rest, IsName s :=
    List.forall_mem_cons.mpr ⟨hname, fun s hs => hx s (List.mem_append_right _ hs)⟩
  have hup : (pathOf x).names = x := by
    rw [names_pathOf fun s hs => hx s (List.mem_append_left _ hs), if_neg hne]
  have hnode : (d.nodeOf []).reach (x ++ rest) = .ok n := hreach
  calc d.locate .target (pathOf (name :: rest))
      = d.resolve .target linkLimit [] (name :: rest) := by
        rw [locate_eq_resolve hsize (holdsZero_pathOf hnames) (isAbsolute_pathOf _), names_pathOf hnames,
          if_neg (List.cons_ne_nil _ _)]
    _ = d.resolve .target 39 [] (x ++ rest) := by
        rw [linkLimit, resolve_link (t := []) hname hentries hlookup, isAbsolute_pathOf, if_pos rfl, hup]
    _ = .ok (x ++ rest) := by
        rw [resolve_eq_of_below? hx (DiskNode.below?_of_reach hnode) hlink, hnode]
        rfl

theorem lookup_eq (h : d.locate last p = .ok x) (hn : d.node? x = some n) : d.lookup last p = .ok n := by
  rw [lookup, h]
  simp [bind, Except.bind, at?, hn]

theorem read_of_lookup (h : d.lookup .target p = .ok (.file contents access)) :
    d.read p = access.read.map fun _ => contents := by
  rw [read, h]
  cases access with
  | mk read _ _ => cases read <;> rfl

theorem list_of_locate {entries : List (String × DiskNode)} (h : d.locate .target p = .ok x)
    (hn : d.node? x = some (.directory entries access)) : d.list p = access.read.map fun _ => d.children x := by
  rw [list, h]
  simp only [bind, Except.bind, at?, hn, Option.some_or]

/-- A path to a file that does not refuse to be read can be opened. -/
theorem opens_of_lookup (h : d.lookup .target p = .ok (.file contents access)) (hread : access.read = .ok ()) :
    d.kind? p = some .file ∧ d.opens p = true := by
  rw [kind?, h, opens, read_of_lookup h, hread]
  exact ⟨rfl, rfl⟩

/-- What can be opened is there, and does not refuse to be read. -/
theorem exists_of_opens (h : d.opens p = true) :
    ∃ y n, d.locate .target p = .ok y ∧ d.at? y = some n ∧ d.lookup .target p = .ok n ∧ n.access.read = .ok () := by
  rw [opens, Bool.or_eq_true, isOk_iff_exists, isOk_iff_exists] at h
  rcases h with ⟨contents, h⟩ | ⟨names, h⟩
  · obtain ⟨n, hlookup, h⟩ := bind_eq_ok h
    obtain ⟨_, hread, -⟩ := bind_eq_ok h
    obtain ⟨y, hl, hat⟩ := bind_eq_ok hlookup
    split at hat
    · rename_i m hm
      obtain rfl := Except.ok.inj hat
      exact ⟨y, m, hl, hm, hlookup, hread⟩
    · cases hat
  · obtain ⟨y, hl, h⟩ := bind_eq_ok h
    split at h
    · rename_i entries access hat
      obtain ⟨_, hread, -⟩ := eq_ok_of_map h
      refine ⟨y, _, hl, hat, ?_, hread⟩
      rw [lookup, hl]
      simp only [bind, Except.bind, hat]
    · cases h

/-- A file that can be opened can be read. -/
theorem exists_read_of_opens (h : d.opens p = true) (hkind : d.kind? p = some .file) :
    ∃ contents, d.read p = .ok contents := by
  obtain ⟨-, n, -, -, hlookup, hread⟩ := exists_of_opens h
  rw [Disk.kind?, hlookup] at hkind
  cases n with
  | file contents access =>
    have hread : access.read = .ok () := hread
    exact ⟨contents, by rw [read_of_lookup hlookup, hread]; rfl⟩
  | _ => cases hkind

namespace IsNamed

theorem locate_eq (h : d.IsNamed l) (hx : l <+: x) (hn : d.node? x = some n) (hlink : n.kind ≠ .link) :
    d.locate last (pathOf x) = (d.reach x).map fun _ => x := by
  refine locate_pathOf_eq (h.names hx hn) hn hlink fun hnil => ?_
  subst hnil
  obtain ⟨entries, access, hroot⟩ := h.exists_entries
  rw [List.prefix_nil.mp hx] at hroot
  cases hn.symm.trans hroot
  rfl

/-- Every path in a tree leads to its own location, unless there is a link, if the location can be gone to. -/
theorem locate (h : d.IsNamed l) (hx : l <+: x) (hreach : d.reach x = .ok n) (hlink : n.kind ≠ .link) :
    d.locate last (pathOf x) = .ok x := by
  rw [h.locate_eq hx (node?_of_reach hreach) hlink, hreach]
  rfl

theorem lookup (h : d.IsNamed l) (hx : l <+: x) (hreach : d.reach x = .ok n) (hlink : n.kind ≠ .link) :
    d.lookup last (pathOf x) = .ok n :=
  lookup_eq (h.locate hx hreach hlink) (node?_of_reach hreach)

theorem read_pathOf (h : d.IsNamed l) (hx : l <+: x) (hreach : d.reach x = .ok (.file contents access)) :
    d.read (pathOf x) = access.read.map fun _ => contents :=
  read_of_lookup (h.lookup hx hreach DiskNode.file_ne_link)

theorem list_pathOf {entries : List (String × DiskNode)} (h : d.IsNamed l) (hx : l <+: x)
    (hreach : d.reach x = .ok (.directory entries access)) :
    d.list (pathOf x) = access.read.map fun _ => d.children x :=
  list_of_locate (h.locate hx hreach DiskNode.directory_ne_link) (node?_of_reach hreach)

/-- What is no link can be opened where it can be gone to and does not refuse to be read. -/
theorem opens_iff (h : d.IsNamed l) (hx : l <+: x) (hn : d.node? x = some n) (hlink : n.kind ≠ .link) :
    d.opens (pathOf x) = true ↔ d.reach x = .ok n ∧ n.access.read = .ok () := by
  constructor
  · intro hopens
    obtain ⟨y, m, hl, hat, -, hread⟩ := exists_of_opens hopens
    rw [h.locate_eq hx hn hlink] at hl
    obtain ⟨k, hreach, rfl⟩ := eq_ok_of_map hl
    obtain rfl : k = n := Option.some.inj ((node?_of_reach hreach).symm.trans hn)
    rw [at?, hn] at hat
    obtain rfl : k = m := Option.some.inj hat
    exact ⟨hreach, hread⟩
  · rintro ⟨hreach, hread⟩
    cases n with
    | file contents access =>
      have hread : access.read = .ok () := hread
      rw [Disk.opens, h.read_pathOf hx hreach, hread]
      rfl
    | directory entries access =>
      have hread : access.read = .ok () := hread
      rw [Disk.opens, h.list_pathOf hx hreach, hread]
      exact Bool.or_true _
    | link target => exact absurd rfl hlink
    | device access =>
      have hread : access.read = .ok () := hread
      rw [Disk.opens, read, h.lookup hx hreach hlink]
      simp [bind, Except.bind, DiskNode.access, hread, Except.isOk, Except.toBool]

/-- A link to something beside it leads to that, or to nothing where there is nothing. -/
theorem lookup_link (h : d.IsNamed l) (hx : l <+: x) (name other : String) (target : Path)
    (hreach : d.reach (x ++ [name]) = .ok (.link target)) (hrelative : target.isAbsolute = false)
    (htarget : target.names = [other]) (hother : IsName other)
    (hplain : ∀ n, d.node? (x ++ [other]) = some n → n.kind ≠ .link) :
    d.lookup .target (pathOf (x ++ [name])) = (d.node? (x ++ [other])).elim (.error .notFound) .ok := by
  have hnames := h.names (hx.trans (List.prefix_append x [name])) (node?_of_reach hreach)
  have hname : IsName name := hnames name (by simp)
  have hsize := size_lt_of_reach hreach
  rw [reach, if_pos hsize, DiskNode.reach_append] at hreach
  obtain ⟨n, hdown, hreach⟩ := bind_eq_ok hreach
  obtain ⟨entries, k, hopen, hlookup, hk⟩ := DiskNode.exists_of_reach_cons hreach
  obtain rfl := Except.ok.inj hk
  have hentries := DiskNode.entries?_of_entriesFor hopen
  have hn : d.node? x = some (.directory entries n.access) :=
    DiskNode.eq_directory hentries ▸ DiskNode.below?_of_reach hdown
  obtain ⟨t, hnode, hlocation, hresolve⟩ :=
    exists_resolve_append (t := []) (fun s hs => hnames s (List.mem_append_left _ hs)) hn nofun
  -- Names are looked up for the link as for what is beside it.
  have hsearch {s : String} (hs : IsName s) : (d.nodeOf t).entriesFor s = .ok entries := by
    rw [DiskNode.entriesFor_eq hentries hname.ne_empty] at hopen
    rw [hnode, DiskNode.entriesFor_eq rfl hs.ne_empty]
    exact hopen
  have hlocate : d.locate .target (pathOf (x ++ [name])) = d.resolve .target 39 t [other] := by
    have hdown : (d.nodeOf []).reach x = .ok n := hdown
    rw [locate_eq_resolve hsize (holdsZero_pathOf hnames) (isAbsolute_pathOf _), names_pathOf hnames, if_neg (by simp),
      hresolve _ _ _ fun heq => hname.ne_empty (List.cons.inj heq).1, hdown, ← htarget]
    show d.resolve .target (39 + 1) t [name] = _
    rw [resolve_link hname (hsearch hname) hlookup, hrelative, List.append_nil]
    rfl
  rw [node?_concat hn]
  cases hfound : entries.lookup other with
  | none =>
    rw [Disk.lookup, hlocate, resolve_missing hother (hsearch hother) hfound]
    rfl
  | some k =>
    have hat : d.node? (x ++ [other]) = some k := (node?_concat hn other).trans hfound
    have hbelow : (d.nodeOf t).below? [other] = some k := by
      rw [hnode, DiskNode.below?_cons, DiskNode.entries?, Option.bind_some, hfound]
      rfl
    have hreach : (d.nodeOf t).reach [other] = .ok k := DiskNode.reach_cons hother (hsearch hother) hfound []
    rw [resolve_eq_of_below? (by simpa using hother) hbelow (hplain k hat), hreach, hlocation] at hlocate
    exact lookup_eq hlocate hat

theorem hasFileLinks (h : d.IsNamed l) (hreach : ∀ y ∈ d.below l, (d.reach y.1).isOk = true)
    (hread : ∀ y ∈ d.below l, y.2.access.read.isOk = true)
    (hlinks : ∀ y ∈ d.below l, y.2.kind = .link →
      d.kind? (pathOf y.1) = some .file ∧ d.opens (pathOf y.1) = true ∨ d.kind? (pathOf y.1) = none) :
    d.HasFileLinks l := by
  refine ⟨h, fun y hy hfile => ?_, fun y hy hlink => (hlinks y hy hlink).imp_left And.left⟩
  by_cases hlink : y.2.kind = .link
  · rcases hlinks y hy hlink with ⟨-, hopens⟩ | hnone
    · exact hopens
    · cases (hfile hlink).symm.trans hnone
  · obtain ⟨hx, hn⟩ := h.mem_below_iff.mp hy
    obtain ⟨_, hread⟩ := isOk_iff_exists.mp (hread y hy)
    exact (h.opens_iff hx hn hlink).mpr ⟨reach_of_isOk (hreach y hy) hn, hread⟩

end IsNamed

/-- A tree is plain where everything can be gone to and read. -/
theorem IsTree.isPlain (h : d.IsTree l) (hreach : ∀ y ∈ d.below l, (d.reach y.1).isOk = true)
    (hread : ∀ y ∈ d.below l, y.2.access.read.isOk = true) : d.IsPlain l := by
  refine ⟨h, fun y hy => ?_⟩
  obtain ⟨hx, hn⟩ := h.mem_below_iff.mp hy
  obtain ⟨_, hread⟩ := isOk_iff_exists.mp (hread y hy)
  exact (h.isNamed.opens_iff hx hn (h.ordinary y hy).kind_ne_link).mpr ⟨reach_of_isOk (hreach y hy) hn, hread⟩

namespace HasFileLinks

/-- Whatever is no link can be gone to and read. -/
theorem reach (h : d.HasFileLinks l) (hx : l <+: x) (hn : d.node? x = some n) (hlink : n.kind ≠ .link) :
    d.reach x = .ok n ∧ n.access.read = .ok () :=
  (h.opens_iff hx hn hlink).mp (h.opens (x, n) (h.mem_below_iff.mpr ⟨hx, hn⟩) fun heq => absurd heq hlink)

/-- A path leads to its own location, unless there is a link. -/
theorem locate (h : d.HasFileLinks l) (hx : l <+: x) (hn : d.node? x = some n) (hlink : n.kind ≠ .link) :
    d.locate last (pathOf x) = .ok x :=
  h.toIsNamed.locate hx (h.reach hx hn hlink).1 hlink

theorem kind?_pathOf (h : d.HasFileLinks l) (hx : l <+: x) (hn : d.node? x = some n) (hlink : n.kind ≠ .link) :
    d.kind? (pathOf x) = some n.kind.entryKind := by
  rw [Disk.kind?, lookup_eq (h.locate hx hn hlink) hn]

theorem list_pathOf {entries : List (String × DiskNode)} (h : d.HasFileLinks l) (hx : l <+: x)
    (hn : d.node? x = some (.directory entries access)) : d.list (pathOf x) = .ok (d.children x) := by
  obtain ⟨hreach, hread⟩ := h.reach hx hn DiskNode.directory_ne_link
  have hread : access.read = .ok () := hread
  rw [h.toIsNamed.list_pathOf hx hreach, hread]
  rfl

theorem locate_root (h : d.HasFileLinks l) : d.locate last (pathOf l) = .ok l := by
  obtain ⟨entries, access, hroot⟩ := h.exists_entries
  exact h.locate List.prefix_rfl hroot DiskNode.directory_ne_link

theorem kind? (h : d.HasFileLinks l) : d.kind? (pathOf l) = some .directory := by
  obtain ⟨entries, access, hroot⟩ := h.exists_entries
  exact h.kind?_pathOf List.prefix_rfl hroot DiskNode.directory_ne_link

end HasFileLinks

namespace IsPlain

theorem hasFileLinks (h : d.IsPlain l) : d.HasFileLinks l :=
  ⟨h.isNamed, fun y hy _ => h.opens y hy, fun y hy hlink => absurd hlink (h.ordinary y hy).kind_ne_link⟩

theorem reach (h : d.IsPlain l) (hx : l <+: x) (hn : d.node? x = some n) :
    d.reach x = .ok n ∧ n.access.read = .ok () :=
  h.hasFileLinks.reach hx hn (h.ordinary_of_node? hx hn).kind_ne_link

theorem locate (h : d.IsPlain l) (hx : l <+: x) (hn : d.node? x = some n) : d.locate last (pathOf x) = .ok x :=
  h.hasFileLinks.locate hx hn (h.ordinary_of_node? hx hn).kind_ne_link

theorem kind?_pathOf (h : d.IsPlain l) (hx : l <+: x) (hn : d.node? x = some n) :
    d.kind? (pathOf x) = some n.kind.entryKind :=
  h.hasFileLinks.kind?_pathOf hx hn (h.ordinary_of_node? hx hn).kind_ne_link

theorem read_pathOf (h : d.IsPlain l) (hx : l <+: x) (hn : d.node? x = some (.file contents access)) :
    d.read (pathOf x) = .ok contents := by
  obtain ⟨hreach, hread⟩ := h.reach hx hn
  have hread : access.read = .ok () := hread
  rw [h.isNamed.read_pathOf hx hreach, hread]
  rfl

end IsPlain

/-! ### Listings -/

section
variable {entries : List (String × DiskNode)}

theorem children_perm (hn : d.node? x = some (.directory entries access)) (hnames : ∀ e ∈ entries, IsName e.1) :
    (d.children x).Perm (entries.map fun e => (e.1, e.2.kind)) := by
  rw [children, hn, Option.bind_some, DiskNode.entries?, Option.getD_some, ← List.filterMap_eq_map]
  refine (List.mergeSort_perm _ _).trans (.of_eq (List.filterMap_congr fun e he => ?_))
  exact if_neg (hnames e he).ne_empty

/-- A directory is listed with all that is in it. -/
theorem mem_children_iff (hn : d.node? x = some (.directory entries access))
    (hordinary : (DiskNode.directory entries access).IsOrdinary) {name : String} {kind : NodeKind} :
    (name, kind) ∈ d.children x ↔ ∃ k, d.node? (x ++ [name]) = some k ∧ k.kind = kind := by
  rw [(children_perm hn hordinary.2).mem_iff, List.mem_map]
  simp only [node?_concat hn, DiskNode.lookup_eq_some_iff hordinary.1]
  constructor
  · rintro ⟨⟨name, k⟩, hmem, heq⟩
    cases heq
    exact ⟨k, hmem, rfl⟩
  · rintro ⟨k, hmem, rfl⟩
    exact ⟨(name, k), hmem, rfl⟩

/-- A directory is listed in the order of the names. -/
theorem pairwise_children (hn : d.node? x = some (.directory entries access))
    (hordinary : (DiskNode.directory entries access).IsOrdinary) :
    (d.children x).Pairwise fun a b => compare a.1 b.1 = .lt := by
  have hsorted : (d.children x).Pairwise fun a b => decide (a.1 ≤ b.1) = true :=
    List.pairwise_mergeSort
      (fun a b c hab hbc => by simpa using String.le_trans (by simpa using hab) (by simpa using hbc))
      (fun a b => by simpa using String.le_total _ _) _
  have hnames : ((d.children x).map (·.1)).Nodup := by
    rw [((children_perm hn hordinary.2).map _).nodup_iff, List.map_map]
    exact hordinary.1
  refine (hsorted.and (List.pairwise_map.mp hnames)).imp fun {a b} h => ?_
  have hlt : a.1 < b.1 := Std.lt_of_le_of_ne (of_decide_eq_true h.1) h.2
  exact if_pos hlt

end

end

end Disk
end TypeFinder
