import TypeFinder.FileSystem.Memory
import TypeFinder.Proofs.Path.Order
import TypeFinder.Proofs.Path.Parts

/-! What a walk in memory comes across. Below a root there are the stored paths and the directories above them, each
    place once and in order. Several stored paths may write the directories above them in different ways; a place
    keeps the way in which it was found first. -/

namespace TypeFinder

/-! ### Each place once -/

section
variable {paths : List Path} {p q : Path}

theorem values_eq_map {α β : Type} {cmp : α → α → Ordering} (t : Std.TreeMap α β cmp) :
    t.values = t.toList.map (·.2) := by
  have h : t.values = t.foldr (fun _ v l => v :: l) [] := rfl
  rw [h, Std.TreeMap.foldr_eq_foldr_toList]
  induction t.toList with
  | nil => rfl
  | cons a l ih => rw [List.foldr_cons, ih, List.map_cons]

/-- Of the paths for one place, the first is kept. -/
theorem getElem?_foldl_insertIfNew (t : Std.TreeMap (List Component) Path) (k : List Component) :
    (paths.foldl (fun found p => found.insertIfNew p.components p) t)[k]? =
      (t[k]?).or (paths.find? (·.components = k)) := by
  induction paths generalizing t with
  | nil => simp
  | cons p paths ih =>
    rw [List.foldl_cons, ih, Std.TreeMap.getElem?_insertIfNew, List.find?_cons]
    by_cases hk : p.components = k
    · subst hk
      by_cases hmem : p.components ∈ t
      · simp [hmem]
      · simp [hmem]
    · simp [hk]

namespace Memory

/-- The paths by place. -/
def firsts (paths : List Path) : Std.TreeMap (List Component) Path :=
  paths.foldl (fun found p => found.insertIfNew p.components p) ∅

theorem mem_toList_firsts {k : List Component} :
    (k, p) ∈ (firsts paths).toList ↔ paths.find? (·.components = k) = some p := by
  rw [Std.TreeMap.mem_toList_iff_getElem?_eq_some, firsts, getElem?_foldl_insertIfNew]
  simp

theorem components_of_mem_firsts {k : List Component} (h : (k, p) ∈ (firsts paths).toList) : p.components = k := by
  simpa using List.find?_some (mem_toList_firsts.mp h)

theorem inOrder_eq (paths : List Path) : inOrder paths = (firsts paths).toList.map (·.2) := values_eq_map _

theorem mem_inOrder_iff : p ∈ inOrder paths ↔ paths.find? (·.same p) = some p := by
  have hsame : (fun q : Path => decide (q.components = p.components)) = (·.same p) := by
    funext q
    rw [Path.same, Bool.beq_eq_decide_eq]
  rw [inOrder_eq, List.mem_map, ← hsame]
  constructor
  · rintro ⟨⟨k, q⟩, hmem, rfl⟩
    have hk := components_of_mem_firsts hmem
    subst hk
    exact mem_toList_firsts.mp hmem
  · intro h
    exact ⟨(p.components, p), mem_toList_firsts.mpr h, rfl⟩

theorem pairwise_inOrder (paths : List Path) : (inOrder paths).Pairwise fun p q => compare p q = .lt := by
  rw [inOrder_eq, List.pairwise_map]
  refine List.Pairwise.imp_of_mem ?_ Std.TreeMap.ordered_keys_toList
  rintro ⟨k, p⟩ ⟨l, q⟩ ha hb hlt
  rw [Path.compare_eq, components_of_mem_firsts ha, components_of_mem_firsts hb]
  exact hlt

/-! ### What is stored -/

section
variable {m : Memory} {c : Option ByteArray}

/-- A place is a file when one is stored for it, however it is written. -/
theorem file?_eq_some_iff : m.file? p = some c ↔ ∃ s, s.same p = true ∧ (s, c) ∈ m.files.toList := by
  rw [file?, Std.TreeMap.getElem?_eq_some_iff_exists_compare_eq_eq_and_mem_toList]
  refine exists_congr fun s => and_congr_left fun _ => ?_
  rw [Path.compare_eq, Path.same_iff, Std.LawfulEqOrd.compare_eq_iff_eq, eq_comm]

theorem mem_stored_iff : p ∈ m.stored ↔ (∃ c, (p, c) ∈ m.files.toList) ∨ p ∈ m.closed.toList := by
  rw [stored, List.mem_append, ← Std.TreeMap.map_fst_toList_eq_keys, List.mem_map]
  simp

theorem isClosed_eq_of_same (h : q.same p = true) : m.isClosed q = m.isClosed p := by
  refine Std.TreeSet.contains_congr ?_
  rw [Path.compare_eq, Path.same_iff.mp h, Std.ReflOrd.compare_self]

/-- A place that is no file and open is not stored itself. -/
theorem same_eq_false_of_mem_stored (hfile : m.file? p = none) (hopen : m.isClosed p = false) (hq : q ∈ m.stored) :
    q.same p = false := by
  refine Bool.eq_false_iff.mpr fun hsame => ?_
  rcases mem_stored_iff.mp hq with ⟨c, hc⟩ | hclosed
  · rw [file?_eq_some_iff.mpr ⟨q, hsame, hc⟩] at hfile
    cases hfile
  · have hmem : q ∈ m.closed := Std.TreeSet.mem_of_mem_toList hclosed
    rw [← isClosed_eq_of_same hsame, isClosed, Std.TreeSet.contains_iff_mem.mpr hmem] at hopen
    cases hopen

end

/-! ### Below a root -/

/-- The paths below `root` that a walk comes across, in the order in which it does: each stored path with the
    directories above it. -/
def found (m : Memory) (root : Path) : List Path :=
  (m.stored.filter fun p => p.isUnder root && !p.same root).flatMap fun p => p :: p.between root

/-- How a walk from `root` writes the place of `p`: as it comes across it first. -/
def spelling (m : Memory) (root p : Path) : Path := ((m.found root).find? (·.same p)).getD p

variable {m : Memory} {root : Path}

theorem isBelow_of_mem_found (h : p ∈ m.found root) :
    p.IsBelow root ∧ ∃ s ∈ m.stored, s.isUnder p = true := by
  obtain ⟨s, hs, hp⟩ := List.mem_flatMap.mp h
  simp only [List.mem_filter, Bool.and_eq_true, Bool.not_eq_true'] at hs
  rcases List.mem_cons.mp hp with rfl | hp
  · exact ⟨hs.2, p, hs.1, Path.isUnder_iff.mpr List.prefix_rfl⟩
  · obtain ⟨n, hroot, hn, hcomp⟩ := Path.exists_take_of_mem_between hp
    refine ⟨Path.isBelow_iff.mpr ⟨?_, fun heq => ?_⟩, s, hs.1, Path.isUnder_iff.mpr (hcomp ▸ List.take_prefix n _)⟩
    · rw [hcomp]
      exact List.prefix_take_iff.mpr ⟨Path.isUnder_iff.mp hs.2.1, Nat.le_of_lt hroot⟩
    · have := congrArg List.length (hcomp.symm.trans heq)
      rw [List.length_take_of_le (Nat.le_of_lt hn)] at this
      omega

theorem exists_mem_found {s : Path} (hp : p.IsBelow root) (hs : s ∈ m.stored) (hsp : s.isUnder p = true) :
    ∃ q ∈ m.found root, q.same p = true := by
  have hlt := hp.length_lt
  have hroot : root.components <+: p.components := Path.isUnder_iff.mp hp.1
  have hps : p.components <+: s.components := Path.isUnder_iff.mp hsp
  have hs : s ∈ m.stored.filter fun p => p.isUnder root && !p.same root := by
    rw [List.mem_filter, Bool.and_eq_true, Bool.not_eq_true', ← Path.IsBelow, Path.isBelow_iff]
    refine ⟨hs, hroot.trans hps, fun h => ?_⟩
    have := hps.length_le
    rw [h] at this
    omega
  rcases Nat.lt_or_eq_of_le hps.length_le with hlen | hlen
  · obtain ⟨q, hq, hcomp⟩ := Path.exists_mem_between hlt hlen
    refine ⟨q, List.mem_flatMap.mpr ⟨s, hs, List.mem_cons_of_mem s hq⟩, Path.same_iff.mpr ?_⟩
    rw [hcomp, ← List.prefix_iff_eq_take.mp hps]
  · exact ⟨s, List.mem_flatMap.mpr ⟨s, hs, List.mem_cons_self⟩, Path.same_iff.mpr (hps.eq_of_length hlen).symm⟩

/-- A walk has each place below the root once, as it is spelled. -/
theorem mem_below_iff : p ∈ m.below root ↔ (m.found root).find? (·.same p) = some p := mem_inOrder_iff

theorem isBelow_of_mem_below (h : p ∈ m.below root) : p.IsBelow root ∧ ∃ s ∈ m.stored, s.isUnder p = true :=
  isBelow_of_mem_found (List.mem_of_find?_eq_some (mem_below_iff.mp h))

theorem same_congr (h : q.same p = true) : (fun r : Path => r.same q) = fun r => r.same p := by
  funext r
  rw [Path.same, Path.same, Path.same_iff.mp h]

theorem spelling_eq (hq : q ∈ m.below root) (hqp : q.same p = true) : m.spelling root p = q := by
  have h := mem_below_iff.mp hq
  rw [same_congr hqp] at h
  rw [spelling, h, Option.getD_some]

theorem spelling_mem_below {s : Path} (hp : p.IsBelow root) (hs : s ∈ m.stored) (hsp : s.isUnder p = true) :
    m.spelling root p ∈ m.below root ∧ (m.spelling root p).same p = true := by
  obtain ⟨q, hq⟩ : ∃ q, (m.found root).find? (·.same p) = some q := by
    rw [← Option.isSome_iff_exists, List.find?_isSome]
    exact exists_mem_found hp hs hsp
  have hqp : q.same p = true := List.find?_some (p := fun q : Path => q.same p) hq
  rw [spelling, hq, Option.getD_some]
  refine ⟨mem_below_iff.mpr ?_, hqp⟩
  rw [same_congr hqp, hq]

end Memory

end

end TypeFinder
