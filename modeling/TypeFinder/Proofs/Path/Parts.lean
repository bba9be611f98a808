import TypeFinder.Path

/-! Paths made of parts. A path is put together from a leading component and parts without a slash, and it has the
    components that they say. So the first components of a path, as it was written, are the first of its
    components. -/

namespace TypeFinder

/-! ### Text and segments -/

section
variable {s t : List Char}

theorem splitAtSlash_append (hs : '/' ∉ s) : splitAtSlash (s ++ '/' :: t) = s :: splitAtSlash t := by
  induction s with
  | nil => simp [splitAtSlash]
  | cons c s ih =>
    simp only [List.mem_cons, not_or] at hs
    simp [splitAtSlash, Ne.symm hs.1, ih hs.2]

theorem splitAtSlash_of_not_mem (hs : '/' ∉ s) : splitAtSlash s = [s] := by
  induction s with
  | nil => rfl
  | cons c s ih =>
    simp only [List.mem_cons, not_or] at hs
    simp [splitAtSlash, Ne.symm hs.1, ih hs.2]

theorem slash_not_mem_of_mem_splitAtSlash (h : s ∈ splitAtSlash t) : '/' ∉ s := by
  induction t generalizing s with
  | nil =>
    obtain rfl := List.mem_singleton.mp h
    simp
  | cons c t ih =>
    unfold splitAtSlash at h
    split at h
    · rcases List.mem_cons.mp h with rfl | h
      · simp
      · exact ih h
    · rename_i hc
      split at h
      · obtain rfl := List.mem_singleton.mp h
        simpa [eq_comm] using hc
      · rename_i a rest heq
        rcases List.mem_cons.mp h with rfl | h
        · have := ih (s := a) (by simp [heq])
          simpa [eq_comm, hc] using this
        · exact ih (by simp [heq, h])

end

theorem splitAtSlash_ne_nil (t : List Char) : splitAtSlash t ≠ [] := by
  cases t with
  | nil => simp [splitAtSlash]
  | cons c t =>
    unfold splitAtSlash
    split
    · simp
    · split <;> simp

namespace Path

section
variable {p : Path} {lead? : Option Component} {body : List String} {n : Nat}

theorem slash_not_mem_segments {s : String} (h : s ∈ p.segments) : '/' ∉ s.toList := by
  obtain ⟨t, ht, rfl⟩ := List.mem_map.mp h
  rw [String.toList_ofList]
  exact slash_not_mem_of_mem_splitAtSlash ht

theorem segments_intercalate (hne : body ≠ []) (hbody : ∀ s ∈ body, '/' ∉ s.toList) :
    (⟨"/".intercalate body⟩ : Path).segments = body := by
  induction body with
  | nil => exact absurd rfl hne
  | cons s body ih =>
    obtain ⟨hs, hbody⟩ := List.forall_mem_cons.mp hbody
    cases body with
    | nil =>
      rw [String.intercalate_singleton, segments, splitAtSlash_of_not_mem hs]
      simp
    | cons u body =>
      have htext : ("/".intercalate (s :: u :: body)).toList = s.toList ++ '/' :: ("/".intercalate (u :: body)).toList := by
        rw [String.intercalate_cons_cons]
        simp
      have ih := ih (List.cons_ne_nil u body) hbody
      simp only [segments] at ih ⊢
      rw [htext, splitAtSlash_append hs, List.map_cons, ih, String.ofList_toList]

theorem isAbsolute_iff : p.isAbsolute = true ↔ ∃ s rest, p.segments = "" :: s :: rest := by
  rw [isAbsolute, segments, beq_iff_eq]
  cases p.text.toList with
  | nil => simp [splitAtSlash]
  | cons c t =>
    obtain ⟨a, rest, ht⟩ := List.exists_cons_of_ne_nil (splitAtSlash_ne_nil t)
    by_cases hc : c = '/'
    · simp [splitAtSlash, hc, ht]
    · simp [splitAtSlash, hc, ht]

/-! ### Putting parts together -/

/-- The components that parts behind the leading one say. -/
def inner (body : List String) : List Component :=
  (body.filter (! isFiller ·)).map fun s => if s = ".." then .parent else .name s

/-- Parts that may stand behind the leading component, or at the start of a path that has none: they do not look
    like one. -/
structure Fits (lead? : Option Component) (body : List String) : Prop where
  slash : ∀ s ∈ body, '/' ∉ s.toList
  lead : lead? = none ∨ lead? = some .root ∨ lead? = some .current
  bare : lead? = none → body.head? ≠ some "." ∧ ∀ s rest, body ≠ "" :: s :: rest

theorem components_of_segments_root {s : String} {rest : List String} (h : p.segments = "" :: s :: rest) :
    p.components = .root :: inner (s :: rest) := by
  have habs : p.isAbsolute = true := isAbsolute_iff.mpr ⟨s, rest, h⟩
  simp [components, body, lead?, habs, h, inner]

theorem components_of_segments_current (h : p.segments = "." :: body) : p.components = .current :: inner body := by
  have habs : p.isAbsolute = false := by
    rw [Bool.eq_false_iff, ne_eq, isAbsolute_iff, h]
    simp
  simp [components, Path.body, lead?, habs, h, inner]

theorem components_of_segments_bare (hdot : p.segments.head? ≠ some ".") (hroot : ∀ s rest, p.segments ≠ "" :: s :: rest) :
    p.components = inner p.segments := by
  have habs : p.isAbsolute = false := by
    rw [Bool.eq_false_iff, ne_eq, isAbsolute_iff]
    rintro ⟨s, rest, h⟩
    exact hroot s rest h
  simp [components, Path.body, lead?, habs, hdot, inner]

theorem components_empty : (⟨""⟩ : Path).components = [] := by decide

/-- Only the empty path has no components. -/
theorem eq_empty_of_components_eq_nil (h : p.components = []) : p = ⟨""⟩ := by
  obtain ⟨hlead, hinner⟩ : p.lead?.toList = [] ∧ inner p.body = [] := List.append_eq_nil_iff.mp h
  have hlead : p.lead? = none := by simpa using hlead
  have hbody : p.body = p.segments := by simp [body, hlead]
  have hfillers : ∀ s ∈ p.segments, isFiller s = true := by
    rw [inner, List.map_eq_nil_iff, List.filter_eq_nil_iff, hbody] at hinner
    simpa using hinner
  unfold lead? at hlead
  split at hlead
  · cases hlead
  rename_i habsolute
  split at hlead
  · cases hlead
  rename_i hdot
  rw [isAbsolute_iff] at habsolute
  cases htext : p.text.toList with
  | nil => exact congrArg Path.mk (String.toList_eq_nil_iff.mp htext)
  | cons c t =>
    obtain ⟨a, rest, ht⟩ := List.exists_cons_of_ne_nil (splitAtSlash_ne_nil t)
    by_cases hc : c = '/'
    · exact absurd ⟨String.ofList a, rest.map String.ofList, by simp [segments, htext, splitAtSlash, hc, ht]⟩ habsolute
    · have hsegments : p.segments = String.ofList (c :: a) :: rest.map String.ofList := by
        simp [segments, htext, splitAtSlash, hc, ht]
      have hfiller := hfillers (String.ofList (c :: a)) (by simp [hsegments])
      rw [hsegments] at hdot
      rw [isFiller, Bool.or_eq_true, beq_iff_eq, beq_iff_eq] at hfiller
      rcases hfiller with hempty | hsingle
      · simp at hempty
      · exact absurd (congrArg some hsingle) hdot

/-- A path put together has the components that its parts say. -/
theorem components_ofParts (h : Fits lead? body) : (ofParts lead? body).components = lead?.toList ++ inner body := by
  have hbody : ∀ s ∈ body, '/' ∉ s.toList := h.slash
  rcases h.lead with rfl | rfl | rfl
  · by_cases hne : body = []
    · subst hne
      exact components_empty
    · have hseg := segments_intercalate hne hbody
      obtain ⟨hdot, hroot⟩ := h.bare rfl
      have := components_of_segments_bare (by rwa [hseg]) (by rwa [hseg])
      rwa [hseg] at this
  · cases body with
    | nil => decide
    | cons s rest =>
      have htext : "/" ++ "/".intercalate (s :: rest) = "/".intercalate ("" :: s :: rest) := by
        rw [String.intercalate_cons_cons, String.empty_append]
      rw [ofParts, htext]
      exact components_of_segments_root (segments_intercalate (List.cons_ne_nil _ _) (by simpa using hbody))
  · exact components_of_segments_current (segments_intercalate (List.cons_ne_nil _ _) (by simpa using hbody))

theorem fits_body (p : Path) : Fits p.lead? p.body where
  slash s hs := by
    unfold body at hs
    split at hs
    · exact slash_not_mem_segments (List.mem_of_mem_tail hs)
    · exact slash_not_mem_segments hs
  lead := by
    unfold lead?
    split
    · simp
    · split <;> simp
  bare h := by
    have hbody : p.body = p.segments := by simp [body, h]
    rw [hbody]
    unfold lead? at h
    split at h
    · cases h
    · rename_i habs
      split at h
      · cases h
      · rename_i hdot
        exact ⟨hdot, fun s rest hseg => habs (isAbsolute_iff.mpr ⟨s, rest, hseg⟩)⟩

theorem takeComponents_initial (n : Nat) (body : List String) : takeComponents n body <+: body := by
  fun_induction takeComponents n body with
  | case1 => exact List.nil_prefix
  | case2 => exact List.nil_prefix
  | case3 n s rest _ ih => exact List.cons_prefix_cons.mpr ⟨rfl, ih⟩
  | case4 n s rest _ ih => exact List.cons_prefix_cons.mpr ⟨rfl, ih⟩

theorem Fits.shorten {body' : List String} (h : Fits lead? body) (hpre : body' <+: body) : Fits lead? body' where
  slash s hs := h.slash s (hpre.subset hs)
  lead := h.lead
  bare hnone := by
    obtain ⟨hdot, hroot⟩ := h.bare hnone
    obtain ⟨rest, rfl⟩ := hpre
    cases body' with
    | nil => simp
    | cons s body' =>
      refine ⟨hdot, ?_⟩
      rintro u r heq
      exact hroot u (r ++ rest) (by rw [heq]; rfl)

theorem inner_takeComponents (n : Nat) (body : List String) : inner (takeComponents n body) = (inner body).take n := by
  fun_induction takeComponents n body with
  | case1 => rfl
  | case2 => simp [inner]
  | case3 n s rest hs ih =>
    have hcons (b : List String) : inner (s :: b) = inner b := by simp [inner, hs]
    rw [hcons, hcons, ih]
  | case4 n s rest hs ih =>
    have hcons (b : List String) : inner (s :: b) = (if s = ".." then .parent else .name s) :: inner b := by
      simp [inner, hs]
    rw [hcons, hcons, List.take_succ_cons, ih]

/-- The first components of a path, as it was written, are the first of its components. -/
theorem components_ofComponents (p : Path) (n : Nat) :
    (ofComponents p.lead? p.body n).components = p.components.take n := by
  have hp : p.components = p.lead?.toList ++ inner p.body := rfl
  rw [ofComponents, hp, List.take_append]
  split
  · rename_i hlt
    have hn : n = 0 := by
      have : p.lead?.toList.length ≤ 1 := by cases p.lead? <;> simp
      omega
    simp [hn, components_empty]
  · rename_i hge
    rw [components_ofParts ((fits_body p).shorten (takeComponents_initial _ _)), inner_takeComponents,
      List.take_of_length_le (Nat.le_of_not_lt hge)]

/-- The places between a base and a path below it are the first components of the path. -/
theorem exists_take_of_mem_between {base q : Path} (h : q ∈ p.between base) :
    ∃ n, base.components.length < n ∧ n < p.components.length ∧ q.components = p.components.take n := by
  obtain ⟨i, hi, rfl⟩ := List.mem_map.mp h
  have hi := List.mem_range.mp hi
  exact ⟨base.components.length + 1 + i, by omega, by omega, components_ofComponents p _⟩

theorem exists_mem_between {base : Path} (hbase : base.components.length < n) (hn : n < p.components.length) :
    ∃ q ∈ p.between base, q.components = p.components.take n := by
  refine ⟨ofComponents p.lead? p.body n, List.mem_map.mpr ⟨n - (base.components.length + 1), ?_, ?_⟩,
    components_ofComponents p n⟩
  · rw [List.mem_range]
    omega
  · rw [Nat.add_sub_cancel' hbase]

end

end Path

end TypeFinder
