import TypeFinder.FileSystem.Disk

/-! Walks on a disk. A walk keeps the entries that it has seen in a listing and not come to. A directory is listed
    when the walk comes to it, and each entry is examined then, so a walk shows the disk as it is at each step. -/

namespace TypeFinder

/-- What a walk is still to come to. -/
inductive Pending where
  /-- The root, which nothing is known of. -/
  | root
  /-- An entry of a listing, what it is by itself, and the directories that the walk is in, innermost first. They
      are kept only where links are followed. -/
  | entry (path : Path) (kind : NodeKind) (above : List Path)
  | failed (f : Failure)
  deriving DecidableEq, Repr

/-- A walk on a disk. -/
structure DiskWalk where
  root : Path
  options : WalkOptions
  pending : List Pending
  deriving DecidableEq, Repr

/-- What comes of examining an entry. -/
inductive Examined where
  | failed (f : Failure)
  /-- The options leave the entry out. -/
  | rejected
  /-- The entry is visited, and then what it holds. -/
  | visited (e : Entry) (inside : List Pending)
  deriving DecidableEq, Repr

namespace DiskWalk

/-- The walk before its first step. -/
def start (root : Path) (o : WalkOptions) : DiskWalk := ⟨root, o, [.root]⟩

/-- The directory at a location is one of those that the walk is in. -/
def loop? (d : Disk) (root path : Path) (l : Location) : List Path → Option Failure
  | [] => none
  | q :: above =>
    match d.opened q with
    | .error e => some ⟨root, .unopened e⟩
    | .ok l' => if l' = l then some ⟨path, .loop path q⟩ else loop? d root path l above

/-- What an entry is where links are followed: the kind behind the link. A link that leads nowhere, or to a
    directory that the walk is in or that cannot be opened, is a failure. -/
def follow (d : Disk) (root path : Path) (above : List Path) : Except Failure NodeKind :=
  match d.lookup .target path with
  | .error e => .error ⟨path, .refused path e⟩
  | .ok n =>
    if n.kind ≠ .directory then .ok n.kind
    else
      match d.opened path with
      | .error e => .error ⟨root, .unopened e⟩
      | .ok l =>
        match loop? d root path l above with
        | some f => .error f
        | none => .ok n.kind

/-- The entries of a directory, still to be visited. -/
def inside (d : Disk) (o : WalkOptions) (path : Path) (above : List Path) : List Pending :=
  match d.list path with
  | .error e => [.failed ⟨path, .refused path e⟩]
  | .ok names =>
    names.map fun (name, kind) => .entry (path.child name) kind (if o.followLinks then path :: above else [])

/-- The entry with this kind by itself. The walk goes into directories, and into a root that is a link to one. -/
def examine (d : Disk) (w : DiskWalk) (path : Path) (kind : NodeKind) (isRoot : Bool) (above : List Path) : Examined :=
  if kind = .link ∧ w.options.followLinks = false then
    match isRoot, d.lookup .target path with
    | true, .error e => .failed ⟨path, .refused path e⟩
    | _, target =>
      let shown := target.toOption.elim .other (·.kind.entryKind)
      if w.options.allows w.root path then
        .visited ⟨path, shown⟩ (if isRoot ∧ shown = .directory then inside d w.options path above else [])
      else .rejected
  else
    match if kind = .link then follow d w.root path above else .ok kind with
    | .error f => .failed f
    | .ok kind =>
      if w.options.allows w.root path then
        .visited ⟨path, kind.entryKind⟩ (if kind = .directory then inside d w.options path above else [])
      else .rejected

/-- What comes of the first thing that is pending. -/
def examinePending (d : Disk) (w : DiskWalk) : Pending → Examined
  | .failed f => .failed f
  | .root =>
    match d.lookup .itself w.root with
    | .error e => .failed ⟨w.root, .refused w.root e⟩
    | .ok n => w.examine d w.root n.kind true []
  | .entry path kind above => w.examine d path kind false above

/-- The next step, given what is pending. -/
def nextOf (d : Disk) (w : DiskWalk) : List Pending → Option (Except Failure Entry × List Pending)
  | [] => none
  | p :: rest =>
    match w.examinePending d p with
    | .failed f => some (.error f, rest)
    | .rejected => w.nextOf d rest
    | .visited e inside => some (.ok e, inside ++ rest)

/-- The next step of a walk. -/
def next? (d : Disk) (w : DiskWalk) : Option (Except Failure Entry × DiskWalk) :=
  (w.nextOf d w.pending).map fun (step, pending) => (step, { w with pending })

/-! ### Every walk ends

    An entry of a directory has a longer path than the directory, and paths are limited. So what is pending can be
    weighed: an entry weighs more than all that may be found in it. -/

/-- The weight of a path that may still grow by so many bytes. -/
def roomWeight (d : Disk) : Nat → Nat
  | 0 => 2
  | room + 1 => roomWeight d room * (d.root.size + 2)

/-- The weight of a path that is still to be visited. -/
def pathWeight (d : Disk) (p : Path) : Nat := roomWeight d (pathLimit - p.text.utf8ByteSize)

/-- The weight of what is pending. -/
def weight (d : Disk) (root : Path) : Pending → Nat
  | .root => pathWeight d root
  | .entry p _ _ => pathWeight d p
  | .failed _ => 1

/-- The weight of all of these. -/
def total (d : Disk) (root : Path) : List Pending → Nat
  | [] => 0
  | p :: rest => weight d root p + total d root rest

/-- The weight of all that is pending. -/
def ahead (d : Disk) (w : DiskWalk) : Nat := total d w.root w.pending

theorem total_append (d : Disk) (root : Path) :
    ∀ ps qs : List Pending, total d root (ps ++ qs) = total d root ps + total d root qs
  | [], qs => (Nat.zero_add _).symm
  | p :: ps, qs => by
    simp only [List.cons_append, total, total_append d root ps qs]
    omega

theorem total_le {d : Disk} {root : Path} {b : Nat} :
    ∀ {l : List Pending}, (∀ p ∈ l, weight d root p ≤ b) → total d root l ≤ l.length * b
  | [], _ => by simp [total]
  | p :: ps, h => by
    have hp := h p (by simp)
    have hps := total_le (b := b) (l := ps) fun q hq => h q (by simp [hq])
    simp only [total, List.length_cons, Nat.add_mul, Nat.one_mul]
    omega

theorem one_lt_roomWeight (d : Disk) : ∀ room, 1 < roomWeight d room
  | 0 => Nat.one_lt_two
  | room + 1 => Nat.lt_of_lt_of_le (one_lt_roomWeight d room) (Nat.le_mul_of_pos_right _ (by omega))

theorem one_lt_pathWeight (d : Disk) (p : Path) : 1 < pathWeight d p := one_lt_roomWeight ..

theorem roomWeight_mono (d : Disk) {m n : Nat} (h : m ≤ n) : roomWeight d m ≤ roomWeight d n := by
  induction h with
  | refl => exact Nat.le_refl _
  | step _ ih => exact Nat.le_trans ih (Nat.le_mul_of_pos_right _ (by omega))

theorem size_lt_child {p : Path} {name : String} (h : name ≠ "") :
    p.text.utf8ByteSize < (p.child name).text.utf8ByteSize := by
  have : name.utf8ByteSize ≠ 0 := fun h0 => h (String.utf8ByteSize_eq_zero_iff.mp h0)
  unfold Path.child
  split <;> simp only [String.utf8ByteSize_append] <;> omega

theorem size_lt_of_locate {d : Disk} {last : LastName} {p : Path} {l : Location} (h : d.locate last p = .ok l) :
    p.text.utf8ByteSize < pathLimit := by
  unfold Disk.locate at h
  split at h
  · cases h
  · split at h
    · cases h
    · split at h
      next hp => exact hp
      · cases h

theorem exists_location_of_list {d : Disk} {p : Path} {names : List (String × NodeKind)} (h : d.list p = .ok names) :
    ∃ l, d.locate .target p = .ok l ∧ names = d.children l := by
  unfold Disk.list at h
  cases hl : d.locate .target p with
  | error e => simp [hl, bind, Except.bind] at h
  | ok l =>
    simp only [hl, bind, Except.bind] at h
    split at h
    next access _ =>
      cases hr : access.read with
      | error e => simp [hr, Except.map] at h
      | ok _ =>
        simp only [hr, Except.map, Except.ok.injEq] at h
        exact ⟨l, rfl, h.symm⟩
    · cases h

theorem length_children_le (d : Disk) (l : Location) : (d.children l).length ≤ d.root.size := by
  unfold Disk.children
  rw [List.length_mergeSort]
  refine Nat.le_trans (List.length_filterMap_le ..) ?_
  cases h : d.node? l with
  | none => simp
  | some n =>
    cases he : n.entries? with
    | none => simp [he]
    | some entries => simpa [he] using Nat.le_trans (DiskNode.length_entries_le he) (DiskNode.size_below_le h)

theorem name_ne_empty {d : Disk} {l : Location} {x : String × NodeKind} (h : x ∈ d.children l) : x.1 ≠ "" := by
  simp only [Disk.children, List.mem_mergeSort, List.mem_filterMap] at h
  obtain ⟨⟨name, n⟩, -, h⟩ := h
  dsimp only at h
  split at h
  · cases h
  next hn => cases h; exact hn

theorem total_inside_lt (d : Disk) (w : DiskWalk) (path : Path) (above : List Path) :
    total d w.root (inside d w.options path above) < pathWeight d path := by
  unfold inside
  split
  · simpa [total, weight] using one_lt_pathWeight d path
  next names h =>
    obtain ⟨l, hl, rfl⟩ := exists_location_of_list h
    have hsize := size_lt_of_locate hl
    have hlen := length_children_le d l
    obtain ⟨k, hk⟩ : ∃ k, pathLimit - path.text.utf8ByteSize = k + 1 :=
      ⟨pathLimit - path.text.utf8ByteSize - 1, by omega⟩
    refine Nat.lt_of_le_of_lt (total_le (b := roomWeight d k) ?_) ?_
    · intro p hp
      obtain ⟨x, hx, rfl⟩ := List.mem_map.mp hp
      have := size_lt_child (p := path) (name_ne_empty hx)
      exact roomWeight_mono d (by omega)
    · rw [List.length_map, pathWeight, hk, roomWeight, Nat.mul_comm]
      exact Nat.mul_lt_mul_of_pos_left (by omega) (Nat.lt_trans Nat.one_pos (one_lt_roomWeight d k))

theorem total_examine_lt {d : Disk} {w : DiskWalk} {path : Path} {kind : NodeKind} {isRoot : Bool} {above : List Path}
    {e : Entry} {found : List Pending} (h : w.examine d path kind isRoot above = .visited e found) :
    total d w.root found < pathWeight d path := by
  have hpos := one_lt_pathWeight d path
  have hin := total_inside_lt d w path above
  unfold examine at h
  have hnil : total d w.root [] < pathWeight d path := Nat.lt_trans Nat.one_pos hpos
  split at h
  · split at h
    · cases h
    · split at h
      · cases h
        split
        · exact hin
        · exact hnil
      · cases h
  · split at h
    · cases h
    · split at h
      · cases h
        split
        · exact hin
        · exact hnil
      · cases h

theorem total_examinePending_lt {d : Disk} {w : DiskWalk} {p : Pending} {e : Entry} {found : List Pending}
    (h : w.examinePending d p = .visited e found) : total d w.root found < weight d w.root p := by
  cases p with
  | failed f => cases h
  | entry path kind above =>
    simp only [examinePending] at h
    exact total_examine_lt h
  | root =>
    simp only [examinePending] at h
    split at h
    · cases h
    · exact total_examine_lt h

theorem weight_pos (d : Disk) (root : Path) (p : Pending) : 0 < weight d root p := by
  cases p with
  | failed f => exact Nat.one_pos
  | root => exact Nat.lt_trans Nat.one_pos (one_lt_pathWeight ..)
  | entry => exact Nat.lt_trans Nat.one_pos (one_lt_pathWeight ..)

theorem total_nextOf_lt {d : Disk} {w : DiskWalk} {step : Except Failure Entry} {left : List Pending} :
    ∀ {pending : List Pending}, w.nextOf d pending = some (step, left) →
      total d w.root left < total d w.root pending
  | [], h => by cases h
  | p :: rest, h => by
    have hp := weight_pos d w.root p
    simp only [nextOf] at h
    simp only [total]
    split at h
    · cases h
      omega
    · have := total_nextOf_lt h
      omega
    next hv =>
      cases h
      have := total_examinePending_lt hv
      rw [total_append]
      omega

theorem ahead_lt {d : Disk} {w w' : DiskWalk} {step : Except Failure Entry} (h : w.next? d = some (step, w')) :
    w'.ahead d < w.ahead d := by
  unfold next? at h
  obtain ⟨⟨s, pending⟩, hn, h⟩ := Option.map_eq_some_iff.mp h
  cases h
  exact total_nextOf_lt (w := w) hn

end DiskWalk

instance : FileSystem Disk where
  kind? := Disk.kind?
  absolute d p := (d.absolute p).mapError .os
  read d p := (d.read p).mapError .os
  Walk := DiskWalk
  walk _ := DiskWalk.start
  next? := DiskWalk.next?
  ahead := DiskWalk.ahead
  ahead_lt := DiskWalk.ahead_lt

end TypeFinder
