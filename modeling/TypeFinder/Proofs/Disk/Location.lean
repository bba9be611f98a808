import TypeFinder.Proofs.Disk.Tree

/-! Locations and their paths. The path of a location is written in the one way that wastes nothing, so it can be
    taken apart again, and what holds of paths can be said of the names. -/

namespace TypeFinder

/-! ### The order of a tree -/

/-- The two locations part somewhere, and the first one goes on with the lesser name. -/
def Location.Before (l k : Location) : Prop := ∃ c a b, compare a b = .lt ∧ c ++ [a] <+: l ∧ c ++ [b] <+: k

/-- What is below one stands before what is below the other. -/
theorem Location.Before.mono {l k l' k' : Location} (h : l.Before k) (hl : l <+: l') (hk : k <+: k') :
    l'.Before k' := by
  obtain ⟨c, a, b, hab, ha, hb⟩ := h
  exact ⟨c, a, b, hab, ha.trans hl, hb.trans hk⟩

namespace Disk

section
variable {l x y : Location} {name : String}

/-! ### Taking paths apart -/

theorem inner_names (h : ∀ s ∈ l, IsName s) : Path.inner l = l.map .name := by
  have hfilter : l.filter (! isFiller ·) = l := List.filter_eq_self.mpr fun s hs => by rw [(h s hs).filler]; rfl
  rw [Path.inner, hfilter]
  exact List.map_congr_left fun s hs => if_neg (h s hs).parent

theorem components_pathOf (h : ∀ s ∈ l, IsName s) : (pathOf l).components = .root :: l.map .name := by
  have hfits : Path.Fits (some .root) l := ⟨fun s hs => (h s hs).slash, .inr (.inl rfl), nofun⟩
  exact (Path.components_ofParts hfits).trans (congrArg _ (inner_names h))

theorem pathOf_eq (hne : l ≠ []) : pathOf l = ⟨"/".intercalate ("" :: l)⟩ := by
  rw [pathOf, String.intercalate_cons_of_ne_nil hne, String.empty_append]

theorem segments_pathOf (h : ∀ s ∈ l, IsName s) (hne : l ≠ []) : (pathOf l).segments = "" :: l := by
  rw [pathOf_eq hne]
  exact Path.segments_intercalate (List.cons_ne_nil _ _)
    (List.forall_mem_cons.mpr ⟨by simp, fun s hs => (h s hs).slash⟩)

theorem isAbsolute_pathOf (l : Location) : (pathOf l).isAbsolute = true := by
  rw [pathOf, Path.isAbsolute, String.toList_append]
  rfl

theorem lead?_pathOf (l : Location) : (pathOf l).lead? = some .root := by rw [Path.lead?, isAbsolute_pathOf, if_pos rfl]

theorem body_pathOf (h : ∀ s ∈ l, IsName s) (hne : l ≠ []) : (pathOf l).body = l := by
  rw [Path.body, lead?_pathOf, segments_pathOf h hne]
  rfl

theorem takeComponents_names (h : ∀ s ∈ l, IsName s) (n : Nat) : Path.takeComponents n l = l.take n := by
  induction l generalizing n with
  | nil => cases n <;> rfl
  | cons s l ih =>
    obtain ⟨hs, hl⟩ := List.forall_mem_cons.mp h
    cases n with
    | zero => rfl
    | succ n => rw [Path.takeComponents, hs.filler, if_neg Bool.false_ne_true, ih hl, List.take_succ_cons]

/-- The paths above a path are those of the locations above. -/
theorem exists_take_of_mem_between (hx : ∀ s ∈ x, IsName s) (hl : ∀ s ∈ l, IsName s) {q : Path}
    (h : q ∈ (pathOf x).between (pathOf l)) : ∃ n, l.length < n ∧ n < x.length ∧ q = pathOf (x.take n) := by
  simp only [Path.between, components_pathOf hx, components_pathOf hl, List.length_cons, List.length_map, List.mem_map,
    List.mem_range] at h
  obtain ⟨i, hi, rfl⟩ := h
  refine ⟨l.length + 1 + i, by omega, by omega, ?_⟩
  have hne : x ≠ [] := by
    rintro rfl
    simp at hi
  have htake : l.length + 1 + 1 + i - 1 = l.length + 1 + i := by omega
  rw [lead?_pathOf, body_pathOf hx hne, Path.ofComponents, Option.toList_some, List.length_singleton, if_neg (by omega),
    takeComponents_names hx, htake]
  rfl

/-! ### Putting paths together -/

theorem text_pathOf_concat (l : Location) (name : String) :
    (pathOf (l ++ [name])).text = (if l = [] then "/" else (pathOf l).text ++ "/") ++ name := by
  split
  · rename_i hl
    subst hl
    rfl
  · rename_i hl
    simp only [pathOf]
    rw [String.intercalate_append_of_ne_nil hl (List.cons_ne_nil _ _), String.intercalate_singleton]
    simp only [String.append_assoc]

/-- Only the path of the root ends with a slash. -/
theorem getLast?_text_pathOf (h : ∀ s ∈ l, IsName s) : (pathOf l).text.toList.getLast? = some '/' ↔ l = [] := by
  rcases List.eq_nil_or_concat l with rfl | ⟨l, s, rfl⟩
  · exact iff_of_true rfl rfl
  · rw [List.concat_eq_append] at h ⊢
    have hs : IsName s := h s (by simp)
    have hne : s.toList ≠ [] := fun hnil => hs.ne_empty (String.toList_eq_nil_iff.mp hnil)
    rw [text_pathOf_concat, String.toList_append, List.getLast?_append, Option.or_of_isSome (by simpa using hne)]
    exact iff_of_false (fun hlast => hs.slash (List.mem_of_getLast? hlast)) (by simp)

theorem child_pathOf (h : ∀ s ∈ l, IsName s) (name : String) : (pathOf l).child name = pathOf (l ++ [name]) := by
  have htext := text_pathOf_concat l name
  have hempty : (pathOf l).text.isEmpty = false := by simp [pathOf]
  by_cases hl : l = []
  · subst hl
    rfl
  · rw [if_neg hl] at htext
    rw [Path.child, if_neg (by simp [hempty, getLast?_text_pathOf h, hl]), ← htext]

/-- A path leads through the names of its location. -/
theorem names_pathOf (h : ∀ s ∈ l, IsName s) : (pathOf l).names = if l = [] then [""] else l := by
  by_cases hl : l = []
  · subst hl
    decide
  · have hfilter : ("" :: l).filter (· ≠ "") = l := by
      rw [List.filter_cons_of_neg (by simp)]
      exact List.filter_eq_self.mpr fun s hs => by simpa using (h s hs).ne_empty
    rw [Path.names, segments_pathOf h hl, hfilter, if_neg (by rwa [getLast?_text_pathOf h]), if_neg hl, List.append_nil]

theorem zero_not_mem_intercalate (h : ∀ s ∈ l, IsName s) : '\x00' ∉ ("/".intercalate l).toList := by
  induction l with
  | nil => simp
  | cons s l ih =>
    obtain ⟨hs, hl⟩ := List.forall_mem_cons.mp h
    cases l with
    | nil =>
      rw [String.intercalate_singleton]
      exact hs.zero
    | cons u l =>
      rw [String.intercalate_cons_cons]
      simpa [hs.zero] using ih hl

theorem holdsZero_pathOf (h : ∀ s ∈ l, IsName s) : (pathOf l).holdsZero = false := by
  simpa [Path.holdsZero, pathOf] using zero_not_mem_intercalate h

/-! ### Comparing paths -/

theorem name_injective : Function.Injective Component.name := fun _ _ => Component.name.inj

theorem isUnder_pathOf (hx : ∀ s ∈ x, IsName s) (hl : ∀ s ∈ l, IsName s) :
    (pathOf x).isUnder (pathOf l) = true ↔ l <+: x := by
  rw [Path.isUnder_iff, components_pathOf hx, components_pathOf hl, List.prefix_cons_inj]
  exact List.prefix_map_iff_of_injective name_injective

theorem eq_of_same (hx : ∀ s ∈ x, IsName s) (hy : ∀ s ∈ y, IsName s) (h : (pathOf x).same (pathOf y) = true) :
    x = y := by
  rw [Path.same_iff, components_pathOf hx, components_pathOf hy, List.cons.injEq] at h
  exact List.map_inj_right (fun _ _ => Component.name.inj) |>.mp h.2

/-- Paths are in the order of the tree. -/
theorem compare_pathOf_of_before (hx : ∀ s ∈ x, IsName s) (hy : ∀ s ∈ y, IsName s) (h : x.Before y) :
    compare (pathOf x) (pathOf y) = .lt := by
  obtain ⟨c, a, b, hab, ⟨u, rfl⟩, ⟨v, rfl⟩⟩ := h
  have hname : compare (Component.name a) (Component.name b) = .lt := hab
  rw [Path.compare_eq, components_pathOf hx, components_pathOf hy]
  simp only [List.append_assoc, List.cons_append, List.nil_append, List.map_append, List.map_cons]
  rw [← List.cons_append, ← List.cons_append, compare_append_left, List.compare_cons_cons, hname]
  rfl

theorem compare_pathOf_of_prefix (hx : ∀ s ∈ x, IsName s) (hl : ∀ s ∈ l, IsName s) (h : l <+: x) (hne : x ≠ l) :
    compare (pathOf l) (pathOf x) = .lt := by
  have hnot : (pathOf x).same (pathOf l) = false := Bool.eq_false_iff.mpr fun hsame => hne (eq_of_same hx hl hsame)
  exact Path.IsBelow.compare_eq_lt ⟨(isUnder_pathOf hx hl).mpr h, hnot⟩

end

end Disk

end TypeFinder
