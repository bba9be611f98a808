import Mathlib.Data.List.Forall2
import TypeFinder.Proofs.Disk.Resolve
import TypeFinder.Proofs.Locator.Traversal

/-! The walk in a tree, where links lead to files or nowhere. What is pending stands for locations that part from one
    another, in the order of the tree. A location that is visited makes way for those in it, which stand before all that
    was pending behind it. So the walk goes through the tree in its order, and goes round what the options leave out.
    It fails only at links that lead nowhere, and only where it follows links. -/

namespace TypeFinder

namespace Disk

/-- What a walk shows of a location: its path, and what this leads to. -/
def shown (d : Disk) (x : Location) : Entry := ⟨pathOf x, (d.kind? (pathOf x)).getD .other⟩

/-- A walk with these options can examine the location. Where it follows links, it cannot examine one that leads
    nowhere. -/
def examines (d : Disk) (o : WalkOptions) (x : Location) : Bool := !o.followLinks || (d.kind? (pathOf x)).isSome

/-- The locations in a directory, in order. -/
def inner (d : Disk) (x : Location) : List Location := (d.children x).map fun c => x ++ [c.1]

/-- A walk that comes to `k` visits `x`: the options allow it, and all on the way from `k`. -/
structure Reaches (d : Disk) (root : Path) (o : WalkOptions) (k x : Location) : Prop where
  below : k <+: x
  there : (d.node? x).isSome = true
  allowed : ∀ y, k <+: y → y <+: x → o.allows root (pathOf y) = true

/-- A walk that comes to `k` comes to `x`: the options allow all on the way from `k`. -/
structure ComesTo (d : Disk) (root : Path) (o : WalkOptions) (k x : Location) : Prop where
  below : k <+: x
  there : (d.node? x).isSome = true
  allowed : ∀ y, k <+: y → y <+: x → y ≠ x → o.allows root (pathOf y) = true

section
variable {d : Disk} {root : Path} {o : WalkOptions} {l k c x : Location} {n : DiskNode} {name : String}

/-- What is above a location that is there is there too. -/
theorem node?_of_prefix (hx : (d.node? x).isSome = true) (hk : k <+: x) : (d.node? k).isSome = true := by
  obtain ⟨t, rfl⟩ := hk
  rw [node?_append] at hx
  exact Option.isSome_of_isSome_bind hx

/-- Only a directory has something below it. -/
theorem isDirectory_of_prefix (hx : (d.node? x).isSome = true) (hk : k <+: x) (hne : k ≠ x) :
    ∃ entries access, d.node? k = some (.directory entries access) := by
  obtain ⟨t, rfl⟩ := hk
  cases t with
  | nil => exact absurd (List.append_nil k).symm hne
  | cons name t =>
    rw [node?_append] at hx
    cases hn : d.node? k with
    | none => simp [hn] at hx
    | some n =>
      cases n with
      | directory entries access => exact ⟨entries, access, rfl⟩
      | _ => simp [hn, DiskNode.below?_cons, DiskNode.entries?] at hx

theorem below_of_mem_inner (hx : x ∈ d.inner k) : k <+: x ∧ k.length < x.length := by
  obtain ⟨c, -, rfl⟩ := List.mem_map.mp hx
  exact ⟨List.prefix_append k _, by simp⟩

theorem inner_eq_nil (hn : d.node? x = some n) (hkind : n.kind ≠ .directory) : d.inner x = [] := by
  cases n with
  | directory entries => exact absurd rfl hkind
  | _ => simp [inner, children, hn, DiskNode.entries?]

/-- On the way from a location to one below there is the location itself, and then the way from the next one. -/
theorem forall_between {P : Location → Prop} (hk : P k) (hx : k ++ [name] <+: x)
    (hc : ∀ y, k ++ [name] <+: y → y <+: x → P y) (y : Location) (hy : k <+: y) (hyx : y <+: x) : P y := by
  rcases List.prefix_or_prefix_of_prefix hyx hx with hyc | hcy
  · rcases List.prefix_concat_iff.mp hyc with rfl | hyk
    · exact hc _ List.prefix_rfl hyx
    · rwa [hyk.eq_of_length_le hy.length_le]
  · exact hc y hcy hyx

namespace IsNamed

theorem mem_inner_iff (h : d.IsNamed l) (hk : l <+: k) (hn : d.node? k = some n) :
    x ∈ d.inner k ↔ (∃ name, x = k ++ [name]) ∧ (d.node? x).isSome = true := by
  by_cases hkind : n.kind = .directory
  · have hordinary := h.ordinary_of_node? hk hn hkind
    cases n with
    | directory entries =>
      simp only [inner, List.mem_map, Prod.exists, mem_children_iff hn hordinary]
      constructor
      · rintro ⟨name, _, ⟨m, hm, rfl⟩, rfl⟩
        exact ⟨⟨name, rfl⟩, by rw [hm]; rfl⟩
      · rintro ⟨⟨name, rfl⟩, hx⟩
        obtain ⟨m, hm⟩ := Option.isSome_iff_exists.mp hx
        exact ⟨name, m.kind, ⟨m, hm, rfl⟩, rfl⟩
    | _ => cases hkind
  · rw [inner_eq_nil hn hkind]
    refine iff_of_false List.not_mem_nil ?_
    rintro ⟨⟨name, rfl⟩, hx⟩
    obtain ⟨entries, access, hk⟩ := isDirectory_of_prefix hx (List.prefix_append k _) (by simp)
    cases hn.symm.trans hk
    exact hkind rfl

theorem pairwise_inner (h : d.IsNamed l) (hk : l <+: k) (hn : d.node? k = some n) :
    (d.inner k).Pairwise Location.Before := by
  by_cases hkind : n.kind = .directory
  · have hordinary := h.ordinary_of_node? hk hn hkind
    cases n with
    | directory entries =>
      exact List.pairwise_map.mpr ((pairwise_children hn hordinary).imp fun hlt =>
        ⟨k, _, _, hlt, List.prefix_rfl, List.prefix_rfl⟩)
    | _ => cases hkind
  · rw [inner_eq_nil hn hkind]
    exact .nil

/-- A walk comes to a location by way of what is in those that it visits. -/
theorem comesTo_iff (h : d.IsNamed l) (hk : l <+: k) (hn : d.node? k = some n) :
    d.ComesTo root o k x ↔ x = k ∨ o.allows root (pathOf k) = true ∧ ∃ c ∈ d.inner k, d.ComesTo root o c x := by
  constructor
  · rintro ⟨⟨t, rfl⟩, hx, hall⟩
    cases t with
    | nil => exact .inl (List.append_nil k)
    | cons name t =>
      have hc : k ++ [name] <+: k ++ name :: t := ⟨t, by simp⟩
      have hkc : k <+: k ++ [name] := List.prefix_append k _
      exact .inr ⟨hall k List.prefix_rfl (List.prefix_append k _) (by simp), k ++ [name],
        (h.mem_inner_iff hk hn).mpr ⟨⟨name, rfl⟩, node?_of_prefix hx hc⟩, hc, hx, fun y hy => hall y (hkc.trans hy)⟩
  · rintro (rfl | ⟨hallow, c, hc, hcomes⟩)
    · exact ⟨List.prefix_rfl, Option.isSome_of_eq_some hn,
        fun _ hy hyx hne => absurd (hyx.eq_of_length_le hy.length_le) hne⟩
    · obtain ⟨⟨name, rfl⟩, -⟩ := (h.mem_inner_iff hk hn).mp hc
      exact ⟨(List.prefix_append k _).trans hcomes.below, hcomes.there,
        forall_between (fun _ => hallow) hcomes.below hcomes.allowed⟩

/-- A location is reached from another one by way of what is in that. -/
theorem reaches_iff (h : d.IsNamed l) (hk : l <+: k) (hn : d.node? k = some n) :
    d.Reaches root o k x ↔ o.allows root (pathOf k) = true ∧ (x = k ∨ ∃ c ∈ d.inner k, d.Reaches root o c x) := by
  constructor
  · rintro ⟨⟨t, rfl⟩, hx, hall⟩
    refine ⟨hall k List.prefix_rfl (List.prefix_append k t), ?_⟩
    cases t with
    | nil => exact .inl (List.append_nil k)
    | cons name t =>
      have hc : k ++ [name] <+: k ++ name :: t := ⟨t, by simp⟩
      have hkc : k <+: k ++ [name] := List.prefix_append k _
      exact .inr ⟨k ++ [name], (h.mem_inner_iff hk hn).mpr ⟨⟨name, rfl⟩, node?_of_prefix hx hc⟩, hc, hx,
        fun y hy => hall y (hkc.trans hy)⟩
  · rintro ⟨hallow, rfl | ⟨c, hc, hreach⟩⟩
    · refine ⟨List.prefix_rfl, by rw [hn]; rfl, fun y hy hyx => ?_⟩
      rwa [hyx.eq_of_length_le hy.length_le]
    · obtain ⟨⟨name, rfl⟩, -⟩ := (h.mem_inner_iff hk hn).mp hc
      exact ⟨(List.prefix_append k _).trans hreach.below, hreach.there,
        forall_between hallow hreach.below hreach.allowed⟩

end IsNamed

theorem examines_of_isSome (h : (d.kind? (pathOf x)).isSome = true) : d.examines o x = true := by
  rw [examines, h, Bool.or_true]

namespace HasFileLinks

/-- Only a link cannot be examined. -/
theorem inner_of_not_examines (h : d.HasFileLinks l) (hx : l <+: x) (hn : d.node? x = some n)
    (hfail : d.examines o x = false) : d.inner x = [] := by
  refine inner_eq_nil hn fun hkind => ?_
  have hlink : n.kind ≠ .link := fun hlink => by rw [hlink] at hkind; cases hkind
  rw [examines_of_isSome (by rw [h.kind?_pathOf hx hn hlink]; rfl)] at hfail
  cases hfail

end HasFileLinks

end

end Disk

namespace DiskWalk

/-- What a walk comes to when this is pending. -/
def course (d : Disk) (root : Path) (o : WalkOptions) (pending : List Pending) : List (Except Failure Entry) :=
  @FileSystem.walked Disk _ d (⟨root, o, pending⟩ : DiskWalk)

/-- What is pending stands for the location: if this can be examined and the options allow it, it is visited, and then
    what is in it. -/
def Stands (d : Disk) (root : Path) (o : WalkOptions) (p : Pending) (x : Location) : Prop :=
  ∃ n above cause, d.node? x = some n ∧ (start root o).examinePending d p =
    if d.examines o x then
      if o.allows root (Disk.pathOf x) then
        .visited (d.shown x) (if n.kind = .directory then inside d o (Disk.pathOf x) above else [])
      else .rejected
    else .failed ⟨Disk.pathOf x, cause⟩

section
variable {d : Disk} {root : Path} {o : WalkOptions} {p : Pending} {ps rest found : List Pending} {e : Entry}
  {l x : Location} {n : DiskNode} {above : List Path}

/-! ### Steps -/

theorem examinePending_eq (pending : List Pending) (p : Pending) :
    (⟨root, o, pending⟩ : DiskWalk).examinePending d p = (start root o).examinePending d p := by
  cases p <;> rfl

theorem nextOf_eq (pending : List Pending) :
    ∀ ps, (⟨root, o, pending⟩ : DiskWalk).nextOf d ps = (start root o).nextOf d ps
  | [] => rfl
  | p :: rest => by rw [nextOf, nextOf, examinePending_eq, nextOf_eq pending rest]

theorem next?_eq (ps : List Pending) :
    next? d ⟨root, o, ps⟩ = ((start root o).nextOf d ps).map fun (step, pending) => (step, ⟨root, o, pending⟩) := by
  rw [next?, nextOf_eq]

theorem course_nil : course d root o [] = [] := FileSystem.walked_of_none rfl

theorem course_of_rejected (h : (start root o).examinePending d p = .rejected) :
    course d root o (p :: rest) = course d root o rest := by
  have hnext : @FileSystem.next? Disk _ d (⟨root, o, p :: rest⟩ : DiskWalk) = next? d ⟨root, o, rest⟩ := by
    show next? d _ = _
    rw [next?_eq, next?_eq, nextOf, h]
  cases hn : @FileSystem.next? Disk _ d (⟨root, o, rest⟩ : DiskWalk) with
  | none => rw [course, course, FileSystem.walked_of_none (hnext.trans hn), FileSystem.walked_of_none hn]
  | some next => rw [course, course, FileSystem.walked_of_some (hnext.trans hn), FileSystem.walked_of_some hn]

theorem course_of_visited (h : (start root o).examinePending d p = .visited e found) :
    course d root o (p :: rest) = .ok e :: course d root o (found ++ rest) := by
  have hnext : next? d ⟨root, o, p :: rest⟩ = some (.ok e, ⟨root, o, found ++ rest⟩) := by
    rw [next?_eq, nextOf, h]
    rfl
  rw [course, FileSystem.walked_of_some hnext, course]

theorem course_of_failed {f : Failure} (h : (start root o).examinePending d p = .failed f) :
    course d root o (p :: rest) = .error f :: course d root o rest := by
  have hnext : next? d ⟨root, o, p :: rest⟩ = some (.error f, ⟨root, o, rest⟩) := by
    rw [next?_eq, nextOf, h]
    rfl
  rw [course, FileSystem.walked_of_some hnext, course]

theorem total_found_lt (h : (start root o).examinePending d p = .visited e found) :
    total d root (found ++ rest) < total d root (p :: rest) := by
  rw [total_append, total]
  exact Nat.add_lt_add_right (total_examinePending_lt h) _

/-! ### What is pending -/

theorem examine_eq {path : Path} {kind : NodeKind} {isRoot : Bool} (hkind : kind ≠ .link) :
    (start root o).examine d path kind isRoot above = if o.allows root path then
      .visited ⟨path, kind.entryKind⟩ (if kind = .directory then inside d o path above else []) else .rejected := by
  unfold examine
  rw [if_neg (fun h => hkind h.1), if_neg hkind]
  rfl

/-- A link is taken for what it leads to. Where links are followed, one that leads nowhere is a failure. -/
theorem examine_link (root : Path) (o : WalkOptions) (above : List Path) {path : Path}
    (hlink : d.kind? path = some .file ∨ d.kind? path = none) : ∃ cause,
    (start root o).examine d path .link false above =
      if !o.followLinks || (d.kind? path).isSome then
        if o.allows root path then .visited ⟨path, (d.kind? path).getD .other⟩ [] else .rejected
      else .failed ⟨path, cause⟩ := by
  have hfollow : (start root o).options.followLinks = o.followLinks := rfl
  cases hlookup : d.lookup .target path with
  | error e =>
    have hnone : d.kind? path = none := by rw [Disk.kind?, hlookup]
    refine ⟨.refused path e, ?_⟩
    unfold examine
    rw [hfollow, hlookup, hnone]
    cases o.followLinks with
    | false => rfl
    | true =>
      have hfail : follow d (start root o).root path above = .error ⟨path, .refused path e⟩ := by
        rw [follow, hlookup]
      rw [if_neg (by simp), if_pos rfl, hfail]
      rfl
  | ok n =>
    have hkind : d.kind? path = some n.kind.entryKind := by rw [Disk.kind?, hlookup]
    have hfile : n.kind = .file := by
      rw [hkind] at hlink
      cases n with
      | file contents => rfl
      | _ => simp [DiskNode.kind, NodeKind.entryKind] at hlink
    refine ⟨.noFile, ?_⟩
    unfold examine
    rw [hfollow, hlookup, hkind, hfile]
    cases o.followLinks with
    | false => simp [Except.toOption, hfile, NodeKind.entryKind, start]
    | true =>
      have hok : follow d (start root o).root path above = .ok .file := by
        rw [follow, hlookup]
        simp [hfile]
      rw [if_neg (by simp), if_pos rfl, hok]
      simp [start, NodeKind.entryKind]

theorem stands_entry (h : d.HasFileLinks l) (hx : l <+: x) (hn : d.node? x = some n) :
    Stands d root o (.entry (Disk.pathOf x) n.kind above) x := by
  by_cases hkind : n.kind = .link
  · obtain ⟨cause, hexamine⟩ := examine_link root o above
      (h.links (x, n) (h.mem_below_iff.mpr ⟨hx, hn⟩) hkind)
    refine ⟨n, above, cause, hn, ?_⟩
    rw [examinePending, hkind]
    exact hexamine
  · have hleads := h.kind?_pathOf hx hn hkind
    refine ⟨n, above, .noFile, hn, ?_⟩
    rw [Disk.examines_of_isSome (by rw [hleads]; rfl), examinePending, examine_eq hkind, Disk.shown, hleads]
    rfl

theorem stands_root (h : d.HasFileLinks l) : Stands d (Disk.pathOf l) o .root l := by
  obtain ⟨entries, access, hn⟩ := h.exists_entries
  have hkind : (DiskNode.directory entries access).kind ≠ .link := DiskNode.directory_ne_link
  have hleads := h.kind?_pathOf List.prefix_rfl hn hkind
  have hlookup : d.lookup .itself (start (Disk.pathOf l) o).root = .ok (.directory entries access) :=
    Disk.lookup_eq (h.locate List.prefix_rfl hn hkind) hn
  refine ⟨.directory entries access, [], .noFile, hn, ?_⟩
  rw [Disk.examines_of_isSome (by rw [hleads]; rfl), examinePending, hlookup, Disk.shown, hleads]
  exact examine_eq hkind

/-- What is found in a location stands for what is in it. -/
theorem forall₂_found (h : d.HasFileLinks l) (hx : l <+: x) (hn : d.node? x = some n) (above : List Path) :
    List.Forall₂ (Stands d root o) (if n.kind = .directory then inside d o (Disk.pathOf x) above else [])
      (d.inner x) := by
  by_cases hkind : n.kind = .directory
  · have hordinary := h.ordinary_of_node? hx hn hkind
    cases n with
    | directory entries access =>
      rw [if_pos hkind, inside, h.list_pathOf hx hn, Disk.inner, List.forall₂_map_left_iff,
        List.forall₂_map_right_iff, List.forall₂_same]
      rintro ⟨name, kind⟩ hmem
      obtain ⟨m, hm, rfl⟩ := (Disk.mem_children_iff hn hordinary).mp hmem
      dsimp only
      rw [Disk.child_pathOf (h.names hx hn)]
      exact stands_entry h (hx.trans (List.prefix_append x _)) hm
    | _ => cases hkind
  · rw [if_neg hkind, Disk.inner_eq_nil hn hkind]
    exact .nil

/-- A directory that refuses to be listed is a failure, and nothing in it is come to. -/
theorem leaves_of_unlisted {entries : List (String × DiskNode)} {access : Access} {e : OsError}
    (hlookup : d.lookup .itself root = .ok (.directory entries access)) (hlist : d.list root = .error e)
    (hallow : o.allows root root = true) :
    (⟨root, .directory⟩ : Root).leaves d o = [.error ⟨root, .refused root e⟩] := by
  have hroot : (start root o).examinePending d .root =
      .visited ⟨root, .directory⟩ [.failed ⟨root, .refused root e⟩] := by
    have hlookup : d.lookup .itself (start root o).root = .ok (.directory entries access) := hlookup
    have hkind : NodeKind.directory ≠ .link := nofun
    rw [examinePending, hlookup]
    show (start root o).examine d root .directory true [] = _
    rw [examine_eq hkind, if_pos hallow, if_pos rfl, inside, hlist]
    rfl
  have hcourse : course d root o [.root] = [.ok ⟨root, .directory⟩, .error ⟨root, .refused root e⟩] := by
    rw [course_of_visited hroot, List.append_nil, course_of_failed rfl, course_nil]
  exact congrArg (List.filterMap leaf?) hcourse

/-! ### The whole walk -/

/-- Among the steps are the visits of these locations: those that are reached from `ls` and can be examined, in the order
    of their paths. The others are failures, at what the walk comes to and cannot examine. -/
structure IsTour (d : Disk) (root : Path) (o : WalkOptions) (ls : List Location)
    (steps : List (Except Failure Entry)) (xs : List Location) : Prop where
  visits : steps.filter (·.isOk) = xs.map fun x => .ok (d.shown x)
  failing : ∀ p, (∃ cause, .error ⟨p, cause⟩ ∈ steps) ↔
    ∃ x, p = Disk.pathOf x ∧ d.examines o x = false ∧ ∃ k ∈ ls, d.ComesTo root o k x
  ordered : xs.Pairwise fun x y => compare (Disk.pathOf x) (Disk.pathOf y) = .lt
  mem : ∀ x, x ∈ xs ↔ d.examines o x = true ∧ ∃ k ∈ ls, d.Reaches root o k x

namespace IsTour
variable {k : Location} {ls xs : List Location} {steps : List (Except Failure Entry)}

theorem nil : IsTour d root o [] [] [] := ⟨rfl, by simp, .nil, by simp⟩

theorem failed {cause : IoError} (h : d.HasFileLinks l) (hk : l <+: k) (hn : d.node? k = some n)
    (hfail : d.examines o k = false) (hxs : IsTour d root o ls steps xs) :
    IsTour d root o (k :: ls) (.error ⟨Disk.pathOf k, cause⟩ :: steps) xs := by
  have hinner := h.inner_of_not_examines hk hn hfail
  refine ⟨hxs.visits, fun p => ⟨?_, ?_⟩, hxs.ordered, fun x => ?_⟩
  · rintro ⟨cause', hmem⟩
    rcases List.mem_cons.mp hmem with heq | hmem
    · cases heq
      exact ⟨k, rfl, hfail, k, List.mem_cons_self, (h.comesTo_iff hk hn).mpr (.inl rfl)⟩
    · obtain ⟨x, hp, hx, c, hc, hcomes⟩ := (hxs.failing p).mp ⟨cause', hmem⟩
      exact ⟨x, hp, hx, c, List.mem_cons_of_mem k hc, hcomes⟩
  · rintro ⟨x, rfl, hx, c, hc, hcomes⟩
    rcases List.mem_cons.mp hc with rfl | hc
    · rcases (h.comesTo_iff hk hn).mp hcomes with rfl | ⟨-, c, hc, -⟩
      · exact ⟨cause, List.mem_cons_self⟩
      · rw [hinner] at hc
        cases hc
    · obtain ⟨cause', hmem⟩ := (hxs.failing _).mpr ⟨x, rfl, hx, c, hc, hcomes⟩
      exact ⟨cause', List.mem_cons_of_mem _ hmem⟩
  · have hnot : d.examines o x = true → ¬ d.Reaches root o k x := by
      rw [h.reaches_iff hk hn, hinner]
      rintro hsees ⟨-, rfl | ⟨c, hc, -⟩⟩
      · rw [hfail] at hsees
        cases hsees
      · cases hc
    rw [hxs.mem]
    refine and_congr_right fun hsees => ?_
    simp [hnot hsees]

theorem rejected (h : d.HasFileLinks l) (hk : l <+: k) (hn : d.node? k = some n) (hsees : d.examines o k = true)
    (hallow : o.allows root (Disk.pathOf k) = false) (hxs : IsTour d root o ls steps xs) :
    IsTour d root o (k :: ls) steps xs := by
  refine ⟨hxs.visits, fun p => (hxs.failing p).trans (exists_congr fun x => ?_), hxs.ordered, fun x => ?_⟩
  · refine and_congr_right fun _ => and_congr_right fun hfail => ?_
    have hnot : ¬ d.ComesTo root o k x := by
      rw [h.comesTo_iff hk hn, hallow]
      rintro (rfl | ⟨hallow, -⟩)
      · rw [hsees] at hfail
        cases hfail
      · cases hallow
    simp [hnot]
  · have hnot : ¬ d.Reaches root o k x := by simp [h.reaches_iff hk hn, hallow]
    simp [hxs.mem, hnot]

theorem visited (h : d.HasFileLinks l) (hls : ∀ x ∈ k :: ls, l <+: x) (hbefore : (k :: ls).Pairwise Location.Before)
    (hn : d.node? k = some n) (hsees : d.examines o k = true) (hallow : o.allows root (Disk.pathOf k) = true)
    (hxs : IsTour d root o (d.inner k ++ ls) steps xs) :
    IsTour d root o (k :: ls) (.ok (d.shown k) :: steps) (k :: xs) := by
  have hk : l <+: k := hls k List.mem_cons_self
  refine ⟨?_, fun p => ?_, List.pairwise_cons.mpr ⟨fun x hx => ?_, hxs.ordered⟩, fun x => ?_⟩
  · rw [List.filter_cons_of_pos rfl, hxs.visits]
    rfl
  · have hsteps : (∃ cause, Except.error ⟨p, cause⟩ ∈ Except.ok (d.shown k) :: steps) ↔
        ∃ cause, Except.error ⟨p, cause⟩ ∈ steps := by simp
    rw [hsteps, hxs.failing]
    refine exists_congr fun x => and_congr_right fun _ => and_congr_right fun hfail => ?_
    have hne : x ≠ k := by
      rintro rfl
      rw [hsees] at hfail
      cases hfail
    simp [h.comesTo_iff hk hn, hne, hallow, or_and_right, exists_or]
  · obtain ⟨-, c, hc, hreach⟩ := (hxs.mem x).mp hx
    obtain ⟨m, hm⟩ := Option.isSome_iff_exists.mp hreach.there
    rcases List.mem_append.mp hc with hc | hc
    · obtain ⟨hkc, hlt⟩ := Disk.below_of_mem_inner hc
      have hkx : k <+: x := hkc.trans hreach.below
      refine Disk.compare_pathOf_of_prefix (h.names (hk.trans hkx) hm) (h.names hk hn) hkx ?_
      rintro rfl
      exact Nat.not_le_of_lt hlt hreach.below.length_le
    · have hlx : l <+: x := (hls c (List.mem_cons_of_mem k hc)).trans hreach.below
      exact Disk.compare_pathOf_of_before (h.names hk hn) (h.names hlx hm)
        (((List.pairwise_cons.mp hbefore).1 c hc).mono List.prefix_rfl hreach.below)
  · rw [List.mem_cons, hxs.mem]
    simp only [List.mem_append, List.mem_cons, or_and_right, exists_or, exists_eq_left, h.reaches_iff hk hn, hallow,
      true_and, or_assoc, and_or_left]
    refine or_congr_left ?_
    exact ⟨fun hx => ⟨hx ▸ hsees, hx⟩, And.right⟩

end IsTour

/-- A walk visits what is reached from what is pending. -/
theorem exists_isTour (h : d.HasFileLinks l) {ls : List Location} (hps : List.Forall₂ (Stands d root o) ps ls)
    (hbefore : ls.Pairwise Location.Before) (hls : ∀ x ∈ ls, l <+: x) :
    ∃ xs, IsTour d root o ls (course d root o ps) xs := by
  -- On what is pending, which weighs less when a directory makes way for its entries.
  induction hw : total d root ps using Nat.strongRecOn generalizing ps ls with
  | ind w ih =>
    subst hw
    cases hps with
    | nil => exact ⟨[], by rw [course_nil]; exact .nil⟩
    | @cons p k ps ls hp hps =>
      obtain ⟨n, above, cause, hn, hexamine⟩ := hp
      have hk : l <+: k := hls k List.mem_cons_self
      obtain ⟨hkbefore, hlsbefore⟩ := List.pairwise_cons.mp hbefore
      have hls' : ∀ x ∈ ls, l <+: x := fun x hx => hls x (List.mem_cons_of_mem k hx)
      have hlight : total d root ps < total d root (p :: ps) := by
        have hpos := weight_pos d root p
        simp only [total]
        omega
      cases hsees : d.examines o k with
      | false =>
        rw [hsees, if_neg Bool.false_ne_true] at hexamine
        obtain ⟨xs, hxs⟩ := ih _ hlight hps hlsbefore hls' rfl
        exact ⟨xs, by rw [course_of_failed hexamine]; exact hxs.failed h hk hn hsees⟩
      | true =>
        rw [hsees, if_pos rfl] at hexamine
        cases hallow : o.allows root (Disk.pathOf k) with
        | false =>
          rw [hallow, if_neg Bool.false_ne_true] at hexamine
          obtain ⟨xs, hxs⟩ := ih _ hlight hps hlsbefore hls' rfl
          exact ⟨xs, by rw [course_of_rejected hexamine]; exact hxs.rejected h hk hn hsees hallow⟩
        | true =>
          rw [hallow, if_pos rfl] at hexamine
          have hbelow : ∀ c ∈ d.inner k, k <+: c := fun c hc => (Disk.below_of_mem_inner hc).1
          have hbefore' : (d.inner k ++ ls).Pairwise Location.Before :=
            List.pairwise_append.mpr ⟨h.pairwise_inner hk hn, hlsbefore, fun c hc x hx =>
              (hkbefore x hx).mono (hbelow c hc) List.prefix_rfl⟩
          obtain ⟨xs, hxs⟩ := ih _ (total_found_lt hexamine) (List.rel_append (forall₂_found h hk hn above) hps)
            hbefore' (List.forall_mem_append.mpr ⟨fun c hc => hk.trans (hbelow c hc), hls'⟩) rfl
          exact ⟨k :: xs, by rw [course_of_visited hexamine]; exact hxs.visited h hls hbefore hn hsees hallow⟩

end

end DiskWalk

end TypeFinder
