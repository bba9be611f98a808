import TypeFinder.Path

/-! Paths in order. A path stands before those below it, and nothing else stands between them. -/

namespace TypeFinder

/-! ### Lists in order -/

section
variable {α : Type} [Ord α] {d p q : List α}

theorem compare_append_self [Std.ReflOrd α] {t : List α} (hne : t ≠ []) : compare d (d ++ t) = .lt := by
  induction d with
  | nil =>
    obtain ⟨c, t, rfl⟩ := List.exists_cons_of_ne_nil hne
    rfl
  | cons c d ih =>
    rw [List.cons_append, List.compare_eq_compareLex, List.compareLex_cons_cons, Std.ReflOrd.compare_self]
    exact ih

theorem compare_append_left [Std.ReflOrd α] : compare (d ++ p) (d ++ q) = compare p q := by
  induction d with
  | nil => rfl
  | cons c d ih => rw [List.cons_append, List.cons_append, List.compare_cons_cons, Std.ReflOrd.compare_self, ih]; rfl

/-- Of two lists of one length, what the lesser starts stands before what the other starts. -/
theorem compare_append_of_lt {s t : List α} (hlen : p.length = q.length) (h : compare p q = .lt) :
    compare (p ++ s) (q ++ t) = .lt := by
  induction p generalizing q with
  | nil =>
    obtain rfl := List.length_eq_zero_iff.mp hlen.symm
    cases h
  | cons c p ih =>
    cases q with
    | nil => cases hlen
    | cons x q =>
      rw [List.compare_cons_cons] at h
      rw [List.cons_append, List.cons_append, List.compare_cons_cons]
      cases hcx : compare c x with
      | lt => rfl
      | gt =>
        rw [hcx] at h
        cases h
      | eq =>
        rw [hcx, Ordering.eq_then] at h
        exact ih (by simpa using hlen) h

/-- What stands between a list and one that it starts is started by it too. -/
theorem prefix_of_between [Std.LawfulEqOrd α] [Std.OrientedOrd α] {t : List α} (hd : (compare d p).isLE)
    (ht : (compare p (d ++ t)).isLE) : d <+: p := by
  induction d generalizing p with
  | nil => exact List.nil_prefix
  | cons c d ih =>
    cases p with
    | nil => cases hd
    | cons x p =>
      rw [List.compare_cons_cons] at hd
      rw [List.cons_append, List.compare_cons_cons] at ht
      cases hcx : compare c x with
      | lt =>
        rw [Std.OrientedCmp.gt_of_lt hcx] at ht
        cases ht
      | gt =>
        rw [hcx] at hd
        cases hd
      | eq =>
        obtain rfl := Std.LawfulEqOrd.eq_of_compare hcx
        rw [hcx, Ordering.eq_then] at hd ht
        exact List.cons_prefix_cons.mpr ⟨rfl, ih hd ht⟩

end

/-! ### Paths in order -/

namespace Path

/-- The path means a place below `base`, not `base` itself. -/
def IsBelow (p base : Path) : Prop := p.isUnder base = true ∧ p.same base = false

instance : DecidableRel IsBelow := fun p base => inferInstanceAs (Decidable (p.isUnder base = true ∧ p.same base = false))

section
variable {p q base : Path}

theorem same_iff : p.same q = true ↔ p.components = q.components := by rw [same, beq_iff_eq]

theorem isUnder_iff : p.isUnder base = true ↔ base.components <+: p.components := List.isPrefixOf_iff_prefix

theorem isBelow_iff : p.IsBelow base ↔ base.components <+: p.components ∧ p.components ≠ base.components := by
  rw [IsBelow, isUnder_iff, Bool.eq_false_iff, ne_eq, same_iff]

theorem IsBelow.length_lt (h : p.IsBelow base) : base.components.length < p.components.length := by
  obtain ⟨hpre, hne⟩ := isBelow_iff.mp h
  exact Nat.lt_of_le_of_ne hpre.length_le fun heq => hne (hpre.eq_of_length heq).symm

/-- Where a path is below another is up to the places that they mean. -/
theorem isBelow_congr {p' base' : Path} (hp : p.same p' = true) (hbase : base.same base' = true) :
    p.IsBelow base ↔ p'.IsBelow base' := by
  rw [isBelow_iff, isBelow_iff, same_iff.mp hp, same_iff.mp hbase]

theorem IsBelow.of_isUnder (hqp : q.isUnder p = true) (h : p.IsBelow base) : q.IsBelow base := by
  have hpre := isUnder_iff.mp hqp
  refine isBelow_iff.mpr ⟨(isBelow_iff.mp h).1.trans hpre, fun heq => ?_⟩
  have := hpre.length_le
  have := h.length_lt
  rw [heq] at *
  omega

theorem isUnder_trans {r : Path} (hqp : q.isUnder p = true) (hpr : p.isUnder r = true) : q.isUnder r = true :=
  isUnder_iff.mpr ((isUnder_iff.mp hpr).trans (isUnder_iff.mp hqp))

theorem same_self (p : Path) : p.same p = true := same_iff.mpr rfl

theorem same_symm (h : q.same p = true) : p.same q = true := same_iff.mpr (same_iff.mp h).symm

theorem isUnder_of_same (h : q.same p = true) : q.isUnder p = true :=
  isUnder_iff.mpr (same_iff.mp h ▸ List.prefix_rfl)

theorem compare_eq (p q : Path) : compare p q = compare p.components q.components := rfl

theorem IsBelow.compare_eq_lt (h : p.IsBelow base) : compare base p = .lt := by
  obtain ⟨⟨t, ht⟩, hne⟩ := isBelow_iff.mp h
  rw [compare_eq, ← ht]
  refine compare_append_self ?_
  rintro rfl
  exact hne (by rw [← ht, List.append_nil])

/-- Of two places at one depth, what is under the lesser stands before what is under the other. -/
theorem compare_of_isUnder {p' q' : Path} (hlen : p.components.length = q.components.length) (h : compare p q = .lt)
    (hp : p'.isUnder p = true) (hq : q'.isUnder q = true) : compare p' q' = .lt := by
  obtain ⟨s, hs⟩ := isUnder_iff.mp hp
  obtain ⟨t, ht⟩ := isUnder_iff.mp hq
  rw [compare_eq, ← hs, ← ht]
  exact compare_append_of_lt hlen h

/-- There is one way only to put paths in order. -/
theorem eq_of_ordered {ps qs : List Path} (hps : ps.Pairwise fun p q => compare p q = .lt)
    (hqs : qs.Pairwise fun p q => compare p q = .lt) (hmem : ∀ p, p ∈ ps ↔ p ∈ qs) : ps = qs := by
  have hnodup {l : List Path} (hordered : l.Pairwise fun p q => compare p q = .lt) : l.Nodup := by
    refine hordered.imp fun {p q} hlt heq => ?_
    rw [heq, Std.ReflOrd.compare_self] at hlt
    cases hlt
  have hperm : ps.Perm qs := (List.perm_ext_iff_of_nodup (hnodup hps) (hnodup hqs)).mpr hmem
  refine hperm.eq_of_pairwise (fun p q _ _ hpq hqp => ?_) hps hqs
  rw [Std.OrientedCmp.gt_of_lt hpq] at hqp
  cases hqp

/-- The paths below a path stand in a row behind it. -/
theorem isUnder_of_between (hbase : compare base p = .lt) (hpq : compare p q = .lt) (h : q.isUnder base = true) :
    p.isUnder base = true := by
  obtain ⟨t, ht⟩ := isUnder_iff.mp h
  rw [compare_eq] at hbase hpq
  rw [← ht] at hpq
  exact isUnder_iff.mpr (prefix_of_between (by rw [hbase]; rfl) (by rw [hpq]; rfl))

theorem isAbsolute_iff_head? : p.isAbsolute = true ↔ p.components.head? = some .root := by
  unfold components lead?
  cases p.isAbsolute with
  | true => simp
  | false =>
    rw [if_neg Bool.false_ne_true]
    split
    · simp
    · simp only [Option.toList_none, List.nil_append, List.head?_map, Bool.false_eq_true, false_iff]
      cases (p.body.filter (! isFiller ·)).head? with
      | none => simp
      | some s => by_cases hs : s = ".." <;> simp [hs]

/-- What is under an absolute path is absolute. -/
theorem isAbsolute_of_isUnder (h : p.isUnder base = true) (hbase : base.isAbsolute = true) : p.isAbsolute = true := by
  rw [isAbsolute_iff_head?] at hbase ⊢
  obtain ⟨rest, hrest⟩ := isUnder_iff.mp h
  obtain ⟨behind, hbehind⟩ := List.head?_eq_some_iff.mp hbase
  rw [← hrest, hbehind]
  rfl

end

end Path

end TypeFinder
