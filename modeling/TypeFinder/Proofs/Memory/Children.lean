import Mathlib.Data.List.Basic
import TypeFinder.Proofs.Memory.Walk

/-! What is right below a directory. A walk goes through the children of its root one after the other, and under each it
    does what a walk from there does, as long as the options do not speak of where it started. -/

namespace TypeFinder

/-! ### Between a path and two places above it -/

theorem filter_lt_range' {a b n : Nat} (hab : a < b) (hbn : b < n) :
    (List.range' (a + 1) (n - 1 - a)).filter (b < ·) = List.range' (b + 1) (n - 1 - b) := by
  have hsplit : n - 1 - a = (b - a) + (n - 1 - b) := by omega
  have hstart : a + 1 + (b - a) = b + 1 := by omega
  have hfirst : (List.range' (a + 1) (b - a)).filter (b < ·) = [] := by
    rw [List.filter_eq_nil_iff]
    intro i hi
    rw [List.mem_range'_1] at hi
    simp only [decide_eq_true_eq]
    omega
  have hrest : (List.range' (b + 1) (n - 1 - b)).filter (b < ·) = List.range' (b + 1) (n - 1 - b) := by
    rw [List.filter_eq_self]
    intro i hi
    rw [List.mem_range'_1] at hi
    simp only [decide_eq_true_eq]
    omega
  rw [hsplit, ← List.range'_append_1, List.filter_append, hfirst, hstart, hrest, List.nil_append]

namespace Path

section
variable {p c d : Path}

theorem isBelow_take_iff {n : Nat} {q : Path} (hq : q.components = p.components.take n) (hn : n ≤ p.components.length)
    (hp : p.isUnder c = true) : q.IsBelow c ↔ c.components.length < n := by
  rw [isBelow_iff, hq, List.prefix_take_iff]
  constructor
  · rintro ⟨⟨-, hle⟩, hne⟩
    refine Nat.lt_of_le_of_ne hle fun heq => hne ?_
    rw [← heq]
    exact (List.prefix_iff_eq_take.mp (isUnder_iff.mp hp)).symm
  · intro hlt
    refine ⟨⟨isUnder_iff.mp hp, Nat.le_of_lt hlt⟩, fun heq => ?_⟩
    have := congrArg List.length heq
    rw [List.length_take_of_le hn] at this
    omega

/-- The places below the nearer one are those that are between. -/
theorem filter_between (hc : c.IsBelow d) (hp : p.IsBelow c) : (p.between d).filter (·.IsBelow c) = p.between c := by
  have hbetween (base : Path) : p.between base = (List.range' (base.components.length + 1)
      (p.components.length - 1 - base.components.length)).map (ofComponents p.lead? p.body) := by
    rw [List.range'_eq_map_range, List.map_map]
    rfl
  have hbelow : ∀ n ∈ List.range' (d.components.length + 1) (p.components.length - 1 - d.components.length),
      ((fun q => decide (q.IsBelow c)) ∘ ofComponents p.lead? p.body) n = decide (c.components.length < n) := by
    intro n hn
    rw [List.mem_range'_1] at hn
    exact decide_eq_decide.mpr (isBelow_take_iff (components_ofComponents p n) (by omega) hp.1)
  rw [hbetween, hbetween, List.filter_map, List.filter_congr hbelow, filter_lt_range' hc.length_lt hp.length_lt]

end

end Path

/-! ### Below a place that is below a root -/

namespace Memory

/-- The places right below a directory, in order, as a walk writes them. -/
def children (m : Memory) (d : Path) : List Path :=
  (m.below d).filter fun p => p.components.length = d.components.length + 1

section
variable {m : Memory} {o : WalkOptions} {p c d : Path} {paths : List Path}

/-- A choice of places chooses the same before and after the paths are put in order. -/
theorem inOrder_filter {P : Path → Bool} (hP : ∀ p q : Path, p.same q = true → P p = P q) :
    inOrder (paths.filter P) = (inOrder paths).filter P := by
  refine Path.eq_of_ordered (pairwise_inOrder _) ((pairwise_inOrder _).filter _) fun p => ?_
  rw [List.mem_filter, mem_inOrder_iff, mem_inOrder_iff, List.find?_filter]
  cases hp : P p with
  | true =>
    have hsame : (fun q => decide (P q = true ∧ q.same p = true)) = fun q => q.same p := by
      funext q
      cases hq : q.same p with
      | false => simp
      | true => simp [hP q p hq, hp]
    rw [hsame]
    simp
  | false =>
    refine iff_of_false (fun h => ?_) (by simp)
    have := List.find?_some h
    simp [hp] at this

/-- A walk from `c` comes across what a walk from `d` comes across below `c`. -/
theorem found_eq_filter (hc : c.IsBelow d) : m.found c = (m.found d).filter (·.IsBelow c) := by
  -- What a stored path brings along is kept as far as `c`, if the path is below `c`, and else not at all.
  unfold found
  induction m.stored with
  | nil => rfl
  | cons s stored ih =>
    by_cases hsc : s.IsBelow c
    · have hsd : s.IsBelow d := hc.of_isUnder hsc.1
      rw [List.filter_cons_of_pos (by simpa [Path.IsBelow] using hsc),
        List.filter_cons_of_pos (by simpa [Path.IsBelow] using hsd), List.flatMap_cons, List.flatMap_cons,
        List.filter_append, ih, List.filter_cons_of_pos (by simpa using hsc), Path.filter_between hc hsc]
    · have hnone : (s :: s.between d).filter (·.IsBelow c) = [] := by
        rw [List.filter_eq_nil_iff]
        intro q hq
        simp only [decide_eq_true_eq]
        rcases List.mem_cons.mp hq with rfl | hq
        · exact hsc
        · obtain ⟨n, -, -, hcomp⟩ := Path.exists_take_of_mem_between hq
          exact fun hqc => hsc (hqc.of_isUnder (Path.isUnder_iff.mpr (hcomp ▸ List.take_prefix n _)))
      rw [List.filter_cons_of_neg (by simpa [Path.IsBelow] using hsc), ih]
      by_cases hsd : s.IsBelow d
      · rw [List.filter_cons_of_pos (by simpa [Path.IsBelow] using hsd), List.flatMap_cons, List.filter_append, hnone,
          List.nil_append]
      · rw [List.filter_cons_of_neg (by simpa [Path.IsBelow] using hsd)]

theorem below_eq_filter (hc : c.IsBelow d) : m.below c = (m.below d).filter (·.IsBelow c) := by
  have hbelow (root : Path) : m.below root = inOrder (m.found root) := rfl
  rw [hbelow, hbelow, found_eq_filter hc]
  refine inOrder_filter fun p q hpq => decide_eq_decide.mpr ?_
  exact Path.isBelow_congr hpq (Path.same_self c)

/-! ### Children -/

theorem mem_children_iff : c ∈ m.children d ↔
    c ∈ m.below d ∧ c.components.length = d.components.length + 1 := by
  rw [children, List.mem_filter, decide_eq_true_eq]

theorem isBelow_of_mem_children (hc : c ∈ m.children d) : c.IsBelow d :=
  (isBelow_of_mem_below (mem_children_iff.mp hc).1).1

/-- What a walk comes across at or below a place is the place as it is written, or below it. -/
theorem eq_or_mem_below (hp : p ∈ m.below d) (hc : c ∈ m.below d) (hpc : p.isUnder c = true) : p = c ∨ p ∈ m.below c := by
  cases hsame : p.same c with
  | true => exact .inl ((spelling_eq hp hsame).symm.trans (spelling_eq hc (Path.same_self c)))
  | false =>
    rw [below_eq_filter (isBelow_of_mem_below hc).1, List.mem_filter, decide_eq_true_eq]
    exact .inr ⟨hp, hpc, hsame⟩

/-- What is below a directory is at or below one of its children. -/
theorem exists_child (hp : p ∈ m.below d) : ∃ c ∈ m.children d, p.isUnder c = true := by
  obtain ⟨hpd, s, hs, hsp⟩ := isBelow_of_mem_below hp
  have hlt := hpd.length_lt
  obtain ⟨q, hq⟩ : ∃ q : Path, q.components = p.components.take (d.components.length + 1) :=
    ⟨_, Path.components_ofComponents p _⟩
  have hqd : q.IsBelow d := (Path.isBelow_take_iff hq (by omega) hpd.1).mpr (by omega)
  have hpq : p.isUnder q = true := Path.isUnder_iff.mpr (hq ▸ List.take_prefix _ _)
  obtain ⟨hmem, hsame⟩ := spelling_mem_below hqd hs (Path.isUnder_trans hsp hpq)
  refine ⟨m.spelling d q, mem_children_iff.mpr ⟨hmem, ?_⟩, Path.isUnder_trans hpq (Path.isUnder_of_same (Path.same_symm hsame))⟩
  rw [Path.same_iff.mp hsame, hq, List.length_take_of_le (by omega)]

theorem mem_below_iff_children : p ∈ m.below d ↔ ∃ c ∈ m.children d, p = c ∨ p ∈ m.below c := by
  constructor
  · intro hp
    obtain ⟨c, hc, hpc⟩ := exists_child hp
    exact ⟨c, hc, eq_or_mem_below hp (mem_children_iff.mp hc).1 hpc⟩
  · rintro ⟨c, hc, rfl | hp⟩
    · exact (mem_children_iff.mp hc).1
    · rw [below_eq_filter (isBelow_of_mem_children hc)] at hp
      exact (List.mem_filter.mp hp).1

/-- What is below a directory are its children, each followed by what is below it. -/
theorem below_eq_flatMap (m : Memory) (d : Path) : m.below d = (m.children d).flatMap fun c => c :: m.below c := by
  have hunder {c p : Path} (hp : p ∈ c :: m.below c) : p.isUnder c = true := by
    rcases List.mem_cons.mp hp with rfl | hp
    · exact Path.isUnder_of_same (Path.same_self p)
    · exact (isBelow_of_mem_below hp).1.1
  have hbelow : (m.below d).Pairwise fun p q => compare p q = .lt := pairwise_inOrder _
  -- Both lists are in order, and they have the same members.
  refine Path.eq_of_ordered hbelow (List.pairwise_flatMap.mpr ⟨fun c _ => ?_, ?_⟩) fun p => ?_
  · exact List.pairwise_cons.mpr ⟨fun p hp => (isBelow_of_mem_below hp).1.compare_eq_lt, pairwise_inOrder _⟩
  · refine List.Pairwise.imp_of_mem (fun {c c'} hc hc' hlt p hp q hq => ?_) (hbelow.filter _)
    have hlen := (mem_children_iff.mp hc).2.trans (mem_children_iff.mp hc').2.symm
    exact Path.compare_of_isUnder hlen hlt (hunder hp) (hunder hq)
  · simp only [mem_below_iff_children (p := p) (d := d), List.mem_flatMap, List.mem_cons]

/-! ### The walk -/

/-- Where nothing is excluded, what is allowed does not depend on where the walk started, but for the start itself. -/
theorem allows_of_isBelow (hexcluded : o.excluded = []) (hp : p.IsBelow d) :
    o.allows d p = !(o.skipHidden && p.isHidden) := by
  rw [WalkOptions.allows, hexcluded, hp.2]
  simp

theorem prunes_congr (hexcluded : o.excluded = []) (hpd : p.IsBelow d) (hpc : p.IsBelow c) :
    m.prunes d o p = m.prunes c o p := by
  rw [prunes, prunes, allows_of_isBelow hexcluded hpd, allows_of_isBelow hexcluded hpc]

/-- Under a child that is open, a walk from the directory visits what one from the child does. -/
theorem visits_below (hexcluded : o.excluded = []) (hc : c ∈ m.children d) (hallow : o.allows d c = true)
    (hopen : m.isClosed c = false) (hp : p ∈ m.below c) :
    m.visits d o (m.below d) p = m.visits c o (m.below c) p := by
  have hcd := isBelow_of_mem_children hc
  have hpc := (isBelow_of_mem_below hp).1
  have hpd : p.IsBelow d := hcd.of_isUnder hpc.1
  have hbelow : ∀ a ∈ m.below c, a ∈ m.below d := fun a ha => mem_below_iff_children.mpr ⟨c, hc, .inr ha⟩
  rw [Bool.eq_iff_iff, visits_iff, visits_iff, allows_of_isBelow hexcluded hpd, allows_of_isBelow hexcluded hpc]
  refine and_congr_right fun _ => ⟨fun h a ha hpa => ?_, fun h a ha hpa => ?_⟩
  · rw [← prunes_congr hexcluded (isBelow_of_mem_below (hbelow a ha)).1 (isBelow_of_mem_below ha).1]
    exact h a (hbelow a ha) hpa
  · -- What is above `p` and below the directory is the child or below it.
    have hac : a.isUnder c = true := by
      have hlen := (isBelow_of_mem_below ha).1.length_lt
      refine Path.isUnder_iff.mpr (List.prefix_of_prefix_length_le (Path.isUnder_iff.mp hpc.1)
        (Path.isUnder_iff.mp hpa.1) ?_)
      rw [(mem_children_iff.mp hc).2]
      exact hlen
    rcases eq_or_mem_below ha (mem_children_iff.mp hc).1 hac with rfl | hac
    · rw [prunes, hallow, if_pos rfl, hopen]
    · rw [prunes_congr hexcluded (isBelow_of_mem_below ha).1 (isBelow_of_mem_below hac).1]
      exact h a hac hpa

/-- An open directory none of whose children is left out is visited child by child. -/
theorem visited_eq_flatMap (hexcluded : o.excluded = []) (hopen : m.isClosed d = false)
    (hallow : ∀ c ∈ m.children d, o.allows d c = true) :
    m.visited d o = (m.children d).flatMap fun c => c :: m.visited c o := by
  rw [visited, hopen, if_neg Bool.false_ne_true]
  refine (congrArg (List.filter (m.visits d o (m.below d))) (below_eq_flatMap m d)).trans ?_
  rw [List.filter_flatMap]
  refine List.flatMap_congr fun c hc => ?_
  have hcd := (mem_children_iff.mp hc).1
  have hvisits : m.visits d o (m.below d) c = true := by
    refine visits_iff.mpr ⟨hallow c hc, fun a ha hca => ?_⟩
    have := (isBelow_of_mem_below ha).1.length_lt
    have := hca.length_lt
    have := (mem_children_iff.mp hc).2
    omega
  rw [List.filter_cons_of_pos hvisits, visited]
  congr 1
  cases hclosed : m.isClosed c with
  | false =>
    rw [if_neg Bool.false_ne_true]
    exact List.filter_congr fun p hp => visits_below hexcluded hc (hallow c hc) hclosed hp
  | true =>
    rw [if_pos rfl, List.filter_eq_nil_iff]
    intro p hp hvisits
    have := (visits_iff.mp hvisits).2 c hcd (isBelow_of_mem_below hp).1
    rw [prunes, hallow c hc, if_pos rfl, hclosed] at this
    cases this

/-- A walk of an open directory is the walks of its children, one after the other. -/
theorem walk_eq_flatMap (hkind : m.kind? d = some .directory) (hexcluded : o.excluded = []) (hopen : m.isClosed d = false)
    (hallow : ∀ c ∈ m.children d, o.allows d c = true) :
    m.walk d o = .ok ⟨d, .directory⟩ :: (m.children d).flatMap fun c => m.walk c o := by
  rw [walk_eq hkind, visited_eq_flatMap hexcluded hopen hallow, List.flatMap_cons, List.map_flatMap, List.flatMap_assoc,
    steps, hopen, if_neg Bool.false_ne_true, List.singleton_append]
  congr 1
  refine List.flatMap_congr fun c hc => ?_
  rw [walk_eq (kind?_of_mem_below (mem_children_iff.mp hc).1)]
  rfl

end

end Memory
end TypeFinder
