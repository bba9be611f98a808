import TypeFinder.Proofs.Memory.Below

/-! The walk in memory. It goes once over the paths below the root, in order, and keeps one directory in mind: the
    last one that it does not enter. That is enough, since what lies below a directory stands in a row behind it. So
    a place is visited when the options allow it and no directory above it is left out or closed. -/

namespace TypeFinder
namespace Memory

/-- Nothing below the place is visited: it is no file and left out, or it is visited and closed. -/
def prunes (m : Memory) (root : Path) (o : WalkOptions) (p : Path) : Bool :=
  if o.allows root p then m.isClosed p else (m.file? p).isNone

/-- The path is visited where these are the paths that the walk goes over. -/
def visits (m : Memory) (root : Path) (o : WalkOptions) (paths : List Path) (p : Path) : Bool :=
  o.allows root p && paths.all fun a => !(p.isUnder a && !p.same a && m.prunes root o a)

/-- What an entry adds to a walk: a failure follows when the directory is closed. -/
def steps (m : Memory) (e : Entry) : List (Except Failure Entry) :=
  .ok e :: if m.isClosed e.path then [.error ⟨e.path, .permissionDenied⟩] else []

/-- The entry that a path makes. -/
def entry (m : Memory) (p : Path) : Entry := ⟨p, m.walkKind p⟩

/-- The directory kept in mind tells of `q` whether one of the paths `done` prunes it. -/
def Remembers (m : Memory) (root : Path) (o : WalkOptions) (done : List Path) (pruned : Option Path) (q : Path) : Prop :=
  pruned.any q.isUnder = true ↔ ∃ a ∈ done, q.isUnder a = true ∧ m.prunes root o a = true

section
variable {m : Memory} {root : Path} {o : WalkOptions} {done rest : List Path} {pruned : Option Path} {p q : Path}

namespace Remembers

/-- A path that prunes nothing, or is pruned itself, leaves nothing to keep in mind. -/
theorem keep (hq : m.Remembers root o done pruned q)
    (hp : m.prunes root o p = false ∨ pruned.any p.isUnder = true) : m.Remembers root o (done ++ [p]) pruned q := by
  refine hq.trans ⟨fun ⟨a, ha, h⟩ => ⟨a, List.mem_append_left _ ha, h⟩, ?_⟩
  rintro ⟨a, ha, hqa, hprunes⟩
  rcases List.mem_append.mp ha with ha | ha
  · exact ⟨a, ha, hqa, hprunes⟩
  · obtain rfl := List.mem_singleton.mp ha
    rcases hp with hp | hp
    · rw [hp] at hprunes
      cases hprunes
    · refine hq.mp ?_
      obtain ⟨d, hd, had⟩ := (Option.any_eq_true _ _).mp hp
      exact (Option.any_eq_true _ _).mpr ⟨d, hd, Path.isUnder_trans hqa had⟩

/-- A path that prunes what is below it takes the place of the one before, since that one has nothing behind it any
    more. -/
theorem replace (hp : m.Remembers root o done pruned p) (hnot : pruned.any p.isUnder = false)
    (hprunes : m.prunes root o p = true) (hdone : ∀ a ∈ done, compare a p = .lt) (hpq : compare p q = .lt) :
    m.Remembers root o (done ++ [p]) (some p) q := by
  constructor
  · intro hqp
    exact ⟨p, by simp, by simpa using hqp, hprunes⟩
  · rintro ⟨a, ha, hqa, haprunes⟩
    rcases List.mem_append.mp ha with ha | ha
    · have hpa : p.isUnder a = true := Path.isUnder_of_between (hdone a ha) hpq hqa
      rw [hp.mpr ⟨a, ha, hpa, haprunes⟩] at hnot
      cases hnot
    · obtain rfl := List.mem_singleton.mp ha
      simpa using hqa

end Remembers

theorem visits_iff {paths : List Path} : m.visits root o paths p = true ↔
    o.allows root p = true ∧ ∀ a ∈ paths, p.IsBelow a → m.prunes root o a = false := by
  rw [visits, Bool.and_eq_true, List.all_eq_true]
  refine and_congr_right fun _ => forall₂_congr fun a _ => ?_
  rw [Path.IsBelow]
  cases p.isUnder a <;> cases p.same a <;> simp

/-- What is kept in mind decides whether the next path is visited. -/
theorem visits_eq (hsorted : (done ++ p :: rest).Pairwise fun p q => compare p q = .lt)
    (hp : m.Remembers root o done pruned p) :
    m.visits root o (done ++ p :: rest) p = (o.allows root p && !pruned.any p.isUnder) := by
  obtain ⟨-, hrest, hdone⟩ := List.pairwise_append.mp hsorted
  have hpruned : (∃ a ∈ done ++ p :: rest, p.IsBelow a ∧ m.prunes root o a = true) ↔
      ∃ a ∈ done, p.isUnder a = true ∧ m.prunes root o a = true := by
    constructor
    · rintro ⟨a, ha, hbelow, hprunes⟩
      have hlt := hbelow.compare_eq_lt
      rcases List.mem_append.mp ha with ha | ha
      · exact ⟨a, ha, hbelow.1, hprunes⟩
      rcases List.mem_cons.mp ha with rfl | ha
      · rw [Std.ReflOrd.compare_self] at hlt
        cases hlt
      · rw [Std.OrientedCmp.gt_of_lt ((List.pairwise_cons.mp hrest).1 a ha)] at hlt
        cases hlt
    · rintro ⟨a, ha, hunder, hprunes⟩
      refine ⟨a, List.mem_append_left _ ha, ⟨hunder, ?_⟩, hprunes⟩
      rw [Bool.eq_false_iff, ne_eq, Path.same_iff]
      intro hsame
      have hlt := hdone a ha p List.mem_cons_self
      rw [Path.compare_eq, hsame, Std.ReflOrd.compare_self] at hlt
      cases hlt
  rw [Bool.eq_iff_iff, visits_iff, Bool.and_eq_true, Bool.not_eq_true', Bool.eq_false_iff, ne_eq,
    hp.trans hpruned.symm]
  simp

/-- The walk over paths in order visits those that no path prunes. -/
theorem visit_eq (hsorted : (done ++ rest).Pairwise fun p q => compare p q = .lt)
    (hmind : ∀ q ∈ rest, m.Remembers root o done pruned q) :
    m.visit root o pruned rest = ((rest.filter (m.visits root o (done ++ rest))).map m.entry).flatMap m.steps := by
  induction rest generalizing done pruned with
  | nil => rfl
  | cons p rest ih =>
    have hp := hmind p List.mem_cons_self
    have hvisits := visits_eq hsorted hp
    obtain ⟨-, hcons, hdone⟩ := List.pairwise_append.mp hsorted
    have hsplit : done ++ p :: rest = done ++ [p] ++ rest := by simp
    have keep (h : m.prunes root o p = false ∨ pruned.any p.isUnder = true) :
        m.visit root o pruned rest = _ :=
      ih (hsplit ▸ hsorted) fun q hq => (hmind q (List.mem_cons_of_mem p hq)).keep h
    have replace (hnot : pruned.any p.isUnder = false) (h : m.prunes root o p = true) :
        m.visit root o (some p) rest = _ :=
      ih (hsplit ▸ hsorted) fun q hq => hp.replace hnot h (fun a ha => hdone a ha p List.mem_cons_self)
        ((List.pairwise_cons.mp hcons).1 q hq)
    rw [← hsplit] at keep replace
    rw [List.filter_cons, hvisits, visit]
    cases hany : pruned.any p.isUnder with
    | true => simpa using keep (Or.inr hany)
    | false =>
      cases hallow : o.allows root p with
      | false =>
        cases hfile : m.file? p with
        | none =>
          have hprunes : m.prunes root o p = true := by simp [prunes, hallow, hfile]
          simpa [walkKind, hfile] using replace hany hprunes
        | some contents =>
          have hprunes : m.prunes root o p = false := by simp [prunes, hallow, hfile]
          simpa [walkKind, hfile] using keep (Or.inl hprunes)
      | true =>
        cases hclosed : m.isClosed p with
        | true =>
          have hprunes : m.prunes root o p = true := by simp [prunes, hallow, hclosed]
          simpa [steps, entry, hclosed] using replace hany hprunes
        | false =>
          have hprunes : m.prunes root o p = false := by simp [prunes, hallow, hclosed]
          simpa [steps, entry, hclosed] using keep (Or.inl hprunes)

/-! ### The whole walk -/

/-- The root and the entries `es` are the pruned tree below the root, in order. -/
structure IsPrunedWalk (m : Memory) (root : Path) (o : WalkOptions) (kind : EntryKind) (es : List Entry) : Prop where
  /-- Every closed directory that is visited is followed by one failure, and there are no others. -/
  walk : m.walk root o = (⟨root, kind⟩ :: es).flatMap m.steps
  ordered : (⟨root, kind⟩ :: es).Pairwise fun d e => compare d.path e.path = .lt
  kinds : ∀ e ∈ ⟨root, kind⟩ :: es, m.kind? e.path = some e.kind
  readable : ∀ e ∈ ⟨root, kind⟩ :: es, e.kind = .file → m.read e.path ≠ .error .noFile
  below : ∀ e ∈ es, e.path.IsBelow root
  spelled : ∀ e ∈ es, m.spelling root e.path = e.path
  visited : ∀ p, p.IsBelow root →
    ((∃ e ∈ es, e.path.same p = true) ↔
      (∃ s ∈ m.stored, s.isUnder p = true) ∧ m.isClosed root = false ∧ o.allows root (m.spelling root p) = true ∧
        ∀ a, a.IsBelow root → p.IsBelow a → m.prunes root o (m.spelling root a) = false)

theorem isSome_file?_of_kind? (h : m.kind? p = some .file) : (m.file? p).isSome = true := by
  unfold kind? at h
  split at h
  · assumption
  · split at h <;> cases h

theorem read_ne_noFile (h : (m.file? p).isSome = true) : m.read p ≠ .error .noFile := by
  obtain ⟨contents, hc⟩ := Option.isSome_iff_exists.mp h
  cases contents <;> simp [read, hc]

theorem kind?_of_mem_below (h : p ∈ m.below root) : m.kind? p = some (m.walkKind p) := by
  obtain ⟨-, s, hs, hsp⟩ := isBelow_of_mem_below h
  have hany : m.stored.any (·.isUnder p) = true := List.any_eq_true.mpr ⟨s, hs, hsp⟩
  rw [kind?, walkKind, hany]
  split <;> rfl

/-- The paths below the root that a walk visits. -/
def visited (m : Memory) (root : Path) (o : WalkOptions) : List Path :=
  if m.isClosed root then [] else (m.below root).filter (m.visits root o (m.below root))

theorem mem_below_of_mem_visited (h : p ∈ m.visited root o) : p ∈ m.below root := by
  unfold visited at h
  split at h
  · cases h
  · exact (List.mem_filter.mp h).1

theorem pairwise_visited (m : Memory) (root : Path) (o : WalkOptions) :
    (m.visited root o).Pairwise fun p q => compare p q = .lt := by
  unfold visited
  split
  · exact .nil
  · exact (pairwise_inOrder _).filter _

theorem walk_eq {kind : EntryKind} (h : m.kind? root = some kind) :
    m.walk root o = (⟨root, kind⟩ :: (m.visited root o).map m.entry).flatMap m.steps := by
  have hvisit : m.visit root o none (m.below root) =
      (((m.below root).filter (m.visits root o ([] ++ m.below root))).map m.entry).flatMap m.steps :=
    visit_eq (pairwise_inOrder _) fun q _ => by simp [Remembers]
  rw [walk, h, List.flatMap_cons, visited]
  cases hclosed : m.isClosed root with
  | true => simp [steps, hclosed]
  | false =>
    rw [hvisit]
    simp [steps, hclosed]

/-- A walk is of the root and of what it visits. -/
theorem eq_of_ok_mem_walk {kind : EntryKind} {e : Entry} (h : m.kind? root = some kind) (he : .ok e ∈ m.walk root o) :
    e = ⟨root, kind⟩ ∨ ∃ p ∈ m.visited root o, e = m.entry p := by
  rw [walk_eq h] at he
  obtain ⟨d, hd, he⟩ := List.mem_flatMap.mp he
  have hed : e = d := by
    rcases List.mem_cons.mp he with he | he
    · exact Except.ok.inj he
    · split at he <;> simp at he
  subst hed
  rcases List.mem_cons.mp hd with rfl | hd
  · exact .inl rfl
  · obtain ⟨p, hp, rfl⟩ := List.mem_map.mp hd
    exact .inr ⟨p, hp, rfl⟩

/-- A walk from a root that is there fails at closed directories only. -/
theorem cause_of_error_mem_walk {kind : EntryKind} {f : Failure} (h : m.kind? root = some kind)
    (hf : .error f ∈ m.walk root o) : f.cause = .permissionDenied := by
  rw [walk_eq h] at hf
  obtain ⟨d, -, hf⟩ := List.mem_flatMap.mp hf
  rcases List.mem_cons.mp hf with hf | hf
  · cases hf
  · split at hf
    · rw [Except.error.inj (List.mem_singleton.mp hf)]
    · cases hf

/-- A place is visited when it holds something, the options allow it, and nothing above it prunes it. -/
theorem exists_mem_visited_iff (hp : p.IsBelow root) :
    (∃ q ∈ m.visited root o, q.same p = true) ↔
      (∃ s ∈ m.stored, s.isUnder p = true) ∧ m.isClosed root = false ∧ o.allows root (m.spelling root p) = true ∧
        ∀ a, a.IsBelow root → p.IsBelow a → m.prunes root o (m.spelling root a) = false := by
  constructor
  · rintro ⟨q, hq, hqp⟩
    have hbelow := mem_below_of_mem_visited hq
    obtain ⟨hclosed, hvisits⟩ : m.isClosed root = false ∧ m.visits root o (m.below root) q = true := by
      unfold visited at hq
      split at hq
      · cases hq
      · rename_i hclosed
        exact ⟨by simpa using hclosed, (List.mem_filter.mp hq).2⟩
    obtain ⟨hallow, hnone⟩ := visits_iff.mp hvisits
    obtain ⟨-, s, hs, hsq⟩ := isBelow_of_mem_below hbelow
    have hsp : s.isUnder p = true := Path.isUnder_trans hsq (Path.isUnder_of_same hqp)
    refine ⟨⟨s, hs, hsp⟩, hclosed, ?_, fun a ha hpa => ?_⟩
    · rw [spelling_eq hbelow hqp]
      exact hallow
    · obtain ⟨hmem, hsame⟩ := spelling_mem_below ha hs (Path.isUnder_trans hsp hpa.1)
      exact hnone _ hmem ((Path.isBelow_congr hqp hsame).mpr hpa)
  · rintro ⟨⟨s, hs, hsp⟩, hclosed, hallow, hnone⟩
    obtain ⟨hmem, hsame⟩ := spelling_mem_below hp hs hsp
    refine ⟨m.spelling root p, ?_, hsame⟩
    rw [visited, hclosed, if_neg Bool.false_ne_true, List.mem_filter, visits_iff]
    refine ⟨hmem, hallow, fun a ha hbelow => ?_⟩
    have := hnone a (isBelow_of_mem_below ha).1 ((Path.isBelow_congr hsame (Path.same_self a)).mp hbelow)
    rwa [spelling_eq ha (Path.same_self a)] at this

/-- A walk from a root that exists is the pruned tree below it, in order. -/
theorem walk_isPruned {kind : EntryKind} (h : m.kind? root = some kind) : ∃ es, m.IsPrunedWalk root o kind es := by
  have hbelow : ∀ e ∈ (m.visited root o).map m.entry, e.path ∈ m.below root ∧ e = m.entry e.path := by
    intro e he
    obtain ⟨p, hp, rfl⟩ := List.mem_map.mp he
    exact ⟨mem_below_of_mem_visited hp, rfl⟩
  have hkinds : ∀ e ∈ ⟨root, kind⟩ :: (m.visited root o).map m.entry, m.kind? e.path = some e.kind := by
    intro e he
    rcases List.mem_cons.mp he with rfl | he
    · exact h
    · obtain ⟨hmem, heq⟩ := hbelow e he
      rw [kind?_of_mem_below hmem, heq]
      rfl
  exact
    ⟨(m.visited root o).map m.entry,
      { walk := walk_eq h
        ordered := by
          refine .cons (fun e he => (isBelow_of_mem_below (hbelow e he).1).1.compare_eq_lt) ?_
          exact List.pairwise_map.mpr (pairwise_visited m root o)
        kinds := hkinds
        readable := fun e he hfile => read_ne_noFile (isSome_file?_of_kind? (hfile ▸ hkinds e he))
        below := fun e he => (isBelow_of_mem_below (hbelow e he).1).1
        spelled := fun e he => spelling_eq (hbelow e he).1 (Path.same_self _)
        visited := fun p hp => by
          rw [← exists_mem_visited_iff hp]
          constructor
          · rintro ⟨e, he, hsame⟩
            obtain ⟨q, hq, rfl⟩ := List.mem_map.mp he
            exact ⟨q, hq, hsame⟩
          · rintro ⟨q, hq, hsame⟩
            exact ⟨m.entry q, List.mem_map_of_mem hq, hsame⟩ }⟩

end

/-- A closed directory is visited, and the file in it is not. -/
theorem walk_isPruned_closed :
    ((empty.insert ⟨"/p/b/y"⟩ ByteArray.empty).insertUnreadableDirectory ⟨"/p/b"⟩).kind? ⟨"/p"⟩ = some .directory ∧
      ∃ es, ((empty.insert ⟨"/p/b/y"⟩ ByteArray.empty).insertUnreadableDirectory ⟨"/p/b"⟩).IsPrunedWalk ⟨"/p"⟩ {}
          .directory es ∧
        (∃ e ∈ es, e.path.same ⟨"/p/b"⟩ = true) ∧ ¬ ∃ e ∈ es, e.path.same ⟨"/p/b/y"⟩ = true := by
  have hkind : ((empty.insert ⟨"/p/b/y"⟩ ByteArray.empty).insertUnreadableDirectory ⟨"/p/b"⟩).kind? ⟨"/p"⟩ =
      some .directory := by
    decide +kernel
  have hb : (⟨"/p/b"⟩ : Path).IsBelow ⟨"/p"⟩ := by constructor <;> decide +kernel
  have hy : (⟨"/p/b/y"⟩ : Path).IsBelow ⟨"/p"⟩ := by constructor <;> decide +kernel
  have hyb : (⟨"/p/b/y"⟩ : Path).IsBelow ⟨"/p/b"⟩ := by constructor <;> decide +kernel
  obtain ⟨es, hes⟩ := walk_isPruned (o := {}) hkind
  refine ⟨hkind, es, hes, (hes.visited _ hb).mpr ?_, fun hvisited => ?_⟩
  · refine ⟨⟨⟨"/p/b"⟩, by decide +kernel, by decide +kernel⟩, by decide +kernel, by decide +kernel, fun a ha hba => ?_⟩
    have hlen : (⟨"/p"⟩ : Path).components.length = 2 ∧ (⟨"/p/b"⟩ : Path).components.length = 3 := by decide
    have := ha.length_lt
    have := hba.length_lt
    omega
  · obtain ⟨-, -, -, hnone⟩ := (hes.visited _ hy).mp hvisited
    have := hnone _ hb hyb
    revert this
    decide +kernel

/-- A place that is stored in two spellings, one of which is left out, may not be visited although the options allow
    the other. So what the options say of a path is no matter of its place alone. -/
theorem not_visited_by_text : ¬ ∀ (m : Memory) (root : Path) (o : WalkOptions) (p : Path), (m.kind? root).isSome = true →
    p.IsBelow root →
    ((∃ e, .ok e ∈ m.walk root o ∧ e.path.same p = true) ↔
      (∃ s ∈ m.stored, s.isUnder p = true) ∧ m.isClosed root = false ∧ o.allows root p = true ∧
        ∀ a, a.IsBelow root → p.IsBelow a → m.prunes root o a = false) := by
  intro h
  let m : Memory := (empty.insert ⟨"/r//a/x.php"⟩ ByteArray.empty).insertUnreadableDirectory ⟨"/r/a"⟩
  let o : WalkOptions := { excluded := (Glob.ofTexts ["/r//a"]).toOption.getD [] }
  have hnot : (m.walk ⟨"/r"⟩ o).all (fun | .ok e => !e.path.same ⟨"/r/a"⟩ | .error _ => true) = true := by
    decide +kernel
  have hkind : (m.kind? ⟨"/r"⟩).isSome = true := by decide +kernel
  have hbelow : (⟨"/r/a"⟩ : Path).IsBelow ⟨"/r"⟩ := by
    constructor <;> decide +kernel
  obtain ⟨e, he, hsame⟩ := (h m ⟨"/r"⟩ o ⟨"/r/a"⟩ hkind hbelow).mpr (by
    refine ⟨⟨⟨"/r/a"⟩, by decide +kernel, by decide +kernel⟩, by decide +kernel, by decide +kernel, fun a ha hpa => ?_⟩
    have hroot : (⟨"/r"⟩ : Path).components.length = 2 := by decide
    have hp : (⟨"/r/a"⟩ : Path).components.length = 3 := by decide
    have := ha.length_lt
    have := hpa.length_lt
    omega)
  have := List.all_eq_true.mp hnot _ he
  simp [hsame] at this

end Memory
end TypeFinder
