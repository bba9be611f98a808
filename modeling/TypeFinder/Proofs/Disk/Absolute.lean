import TypeFinder.Proofs.Disk.Resolve

/-! Absolute paths. The operating system resolves a path with its trail in hand, and the absolute form is put together
    from the root, with a question about every location on the way. Where both come to an end they come to the same
    location. The absolute form may fail where the path itself leads somewhere: a location on the way may have too long
    a path, or one that cannot be gone to from the root. -/

namespace TypeFinder

/-- The trail goes through the tree: every name on it is that of its node. -/
def Trail.IsIn (d : Disk) : Trail → Prop
  | [] => True
  | (name, n) :: t => (d.nodeOf t).entries?.bind (List.lookup name) = some n ∧ IsIn d t

namespace Disk

section
variable {d : Disk} {last : LastName} {links : Nat} {t : Trail} {l l' x : Location} {n m : DiskNode} {p q : Path}
  {name : String} {names : List String}

/-! ### Trails -/

theorem node?_location (h : t.IsIn d) : d.node? t.location = some (d.nodeOf t) := by
  induction t with
  | nil => rfl
  | cons step t ih =>
    obtain ⟨name, n⟩ := step
    rw [location_cons, node?_append, ih h.2, Option.bind_some, DiskNode.below?_cons, h.1]
    rfl

theorem prefix_location_trailFrom (d : Disk) (t : Trail) (l : Location) : t.location <+: (d.trailFrom t l).location := by
  induction l generalizing t with
  | nil => exact List.prefix_rfl
  | cons name rest ih =>
    rw [trailFrom]
    split
    · exact (location_cons name _ t ▸ List.prefix_append t.location [name]).trans (ih _)
    · exact (location_cons "" _ t ▸ List.prefix_append t.location [""]).trans (ih _)

/-- Where nothing was taken away, the way is in the tree. -/
theorem isIn_trailFrom (ht : t.IsIn d) (h : "" ∉ (d.trailFrom t l).location) : (d.trailFrom t l).IsIn d := by
  induction l generalizing t with
  | nil => exact ht
  | cons name rest ih =>
    rw [trailFrom] at h ⊢
    split at h
    · rename_i entries access hlookup
      refine ih ⟨?_, ht⟩ h
      cases hentries : (d.nodeOf t).entries? with
      | none => simp [hentries] at hlookup
      | some es => simpa [hentries] using hlookup
    · refine absurd ((prefix_location_trailFrom d _ rest).subset ?_) h
      rw [location_cons]
      simp

theorem location_tail (t : Trail) : Trail.location (List.tail t) = t.location.dropLast := by
  cases t with
  | nil => rfl
  | cons step t => simp [Trail.location]

theorem isIn_tail (h : t.IsIn d) : Trail.IsIn d (List.tail t) := by
  cases t with
  | nil => exact h
  | cons step t => exact h.2

/-! ### The two ways -/

theorem exists_link (h : n.kind = .link) : ∃ target, n = .link target := by
  cases n with
  | link target => exact ⟨target, rfl⟩
  | _ => cases h

/-- With the trail in hand, a name that is no dots leads through a link or to a node. -/
theorem exists_of_resolve_cons (hskip : ¬ (name = "." ∨ name = "")) (hup : name ≠ "..")
    (h : d.resolve .target links t (name :: names) = .ok l) :
    ∃ n, (d.nodeOf t).entries?.bind (List.lookup name) = some n ∧
      (∀ target, n = .link target → ∃ links', links = links' + 1 ∧
        d.resolve .target links' (if target.isAbsolute then [] else t) (target.names ++ names) = .ok l) ∧
      (n.kind ≠ .link → d.resolve .target links ((name, n) :: t) names = .ok l) := by
  rw [resolve] at h
  split at h
  · cases h
  rename_i entries hopen
  rw [if_neg hskip, if_neg hup, if_neg (by simp)] at h
  rw [DiskNode.entries?_of_entriesFor hopen, Option.bind_some]
  split at h
  · cases h
  split at h
  · simp at h
  · rename_i target hlookup
    rw [if_neg (by simp)] at h
    split at h
    · cases h
    · exact ⟨_, hlookup, by rintro _ ⟨⟩; exact ⟨_, rfl, h⟩, fun hne => absurd rfl hne⟩
  · rename_i n hne hlookup
    exact ⟨n, hlookup, fun target heq => (hne target heq).elim, fun _ => h⟩

/-- From the root, a name that is no dots leads through a link or to a node that can be gone to. -/
theorem exists_of_locateFromRoot_cons (hskip : ¬ (name = "." ∨ name = "")) (hup : name ≠ "..")
    (h : d.locateFromRoot links x (name :: names) = .ok l) :
    ∃ n, d.reach (x ++ [name]) = .ok n ∧
      (∀ target, n = .link target → ∃ links', links = links' + 1 ∧
        d.locateFromRoot links' (if target.isAbsolute then [] else x) (target.names ++ names) = .ok l) ∧
      (n.kind ≠ .link → d.locateFromRoot links (x ++ [name]) names = .ok l) := by
  rw [locateFromRoot, if_neg hskip, if_neg hup] at h
  split at h
  · cases h
  · rename_i target hreach
    split at h
    · cases h
    · exact ⟨_, hreach, by rintro _ ⟨⟩; exact ⟨_, rfl, h⟩, fun hne => absurd rfl hne⟩
  · rename_i n hne hreach
    split at h
    · cases h
    · exact ⟨n, hreach, fun target heq => (hne target heq).elim, fun _ => h⟩

/-- The node that a name leads to is the one that is found there from the root. -/
theorem eq_of_reach (ht : t.IsIn d) (hn : (d.nodeOf t).entries?.bind (List.lookup name) = some n)
    (hreach : d.reach (t.location ++ [name]) = .ok m) : m = n := by
  have hm := node?_of_reach hreach
  rw [node?_append, node?_location ht, Option.bind_some, DiskNode.below?_cons, hn] at hm
  exact (Option.some.inj hm).symm

/-- The names lead to the same location, with the trail in hand and from the root, and something is there. -/
theorem eq_of_locateFromRoot : ∀ {links : Nat} {t : Trail} {names : List String}, t.IsIn d →
    d.resolve .target links t names = .ok l → d.locateFromRoot links t.location names = .ok l' →
    l' = l ∧ (d.node? l).isSome = true
  | links, t, [], ht, h, h' => by
    rw [resolve] at h
    rw [locateFromRoot] at h'
    obtain rfl := Except.ok.inj h
    exact ⟨(Except.ok.inj h').symm, Option.isSome_of_eq_some (node?_location ht)⟩
  | links, t, name :: names, ht, h, h' => by
    by_cases hskip : name = "." ∨ name = ""
    · rw [locateFromRoot, if_pos hskip] at h'
      rw [resolve] at h
      split at h
      · cases h
      rw [if_pos hskip] at h
      exact eq_of_locateFromRoot ht h h'
    by_cases hup : name = ".."
    · rw [locateFromRoot, if_neg hskip, if_pos hup, ← location_tail] at h'
      rw [resolve] at h
      split at h
      · cases h
      rw [if_neg hskip, if_pos hup] at h
      exact eq_of_locateFromRoot (isIn_tail ht) h h'
    obtain ⟨n, hn, hlink, hplain⟩ := exists_of_resolve_cons hskip hup h
    obtain ⟨m, hm, hlink', hplain'⟩ := exists_of_locateFromRoot_cons hskip hup h'
    obtain rfl := eq_of_reach ht hn hm
    by_cases hkind : m.kind = .link
    · obtain ⟨target, rfl⟩ := exists_link hkind
      obtain ⟨links', rfl, hgo⟩ := hlink target rfl
      obtain ⟨_, hlinks, hgo'⟩ := hlink' target rfl
      obtain rfl := Nat.succ_inj.mp hlinks
      split at hgo
      · rw [if_pos ‹_›] at hgo'
        exact eq_of_locateFromRoot (t := []) trivial hgo hgo'
      · rw [if_neg ‹_›] at hgo'
        exact eq_of_locateFromRoot ht hgo hgo'
    · exact eq_of_locateFromRoot (t := (name, m) :: t) ⟨hn, ht⟩ (hplain hkind) (location_cons name m t ▸ hplain' hkind)
termination_by links _ names => (links, names.length)

/-- A path that has an absolute form starts from a trail in the tree. -/
theorem isIn_of_startOf (h : d.startOf p = .ok x) : ∃ t : Trail,
    t = (if p.isAbsolute then [] else d.here) ∧ t.location = x ∧ t.IsIn d := by
  unfold startOf at h
  split at h
  · rename_i habsolute
    exact ⟨[], (if_pos habsolute).symm, Except.ok.inj h, trivial⟩
  rename_i habsolute
  split at h
  · cases h
  rename_i hthere
  have hin : d.here.IsIn d := isIn_trailFrom (t := []) trivial (by simpa [here] using hthere)
  refine ⟨d.here, (if_neg habsolute).symm, ?_, hin⟩
  split at h
  · exact Except.ok.inj h
  · obtain ⟨_, -, h⟩ := bind_eq_ok h
    obtain ⟨_, -, h⟩ := eq_ok_of_map h
    exact h

/-- Where a path leads to a location and has an absolute form, that is the path of the location. -/
theorem eq_of_absolute (h : d.locate .target p = .ok l) (hq : d.absolute p = .ok q) :
    q = pathOf l ∧ (d.node? l).isSome = true := by
  unfold locate at h
  unfold absolute at hq
  split at h
  · cases h
  rw [if_neg ‹_›] at hq
  split at h
  · cases h
  rw [if_neg ‹_›] at hq
  split at h
  · obtain ⟨x, hx, hq⟩ := bind_eq_ok hq
    obtain ⟨y, hy, rfl⟩ := eq_ok_of_map hq
    obtain ⟨t, ht, rfl, hin⟩ := isIn_of_startOf hx
    rw [resolveFromStart, ← ht] at h
    exact (eq_of_locateFromRoot hin h hy).imp_left (congrArg pathOf)
  · cases h

/-! ### Absolute forms that there are -/

/-- Names ask for a directory in front of them only if there is a dot or a slash among them. -/
theorem askDirectory_eq_false {rest : Location} (h : ∀ s ∈ rest, IsName s) : askDirectory rest = false := by
  cases rest with
  | nil => rfl
  | cons s rest =>
    have hs : IsName s := h s List.mem_cons_self
    simp [askDirectory, hs.ne_dot, hs.ne_empty, hs.parent]

theorem size_pathOf_concat (x : Location) (name : String) :
    (pathOf x).text.utf8ByteSize ≤ (pathOf (x ++ [name])).text.utf8ByteSize := by
  rw [text_pathOf_concat]
  split
  · rename_i hx
    subst hx
    simp [pathOf]
  · simp only [String.utf8ByteSize_append]
    omega

theorem size_pathOf_le {rest : Location} (x : Location) :
    (pathOf x).text.utf8ByteSize ≤ (pathOf (x ++ rest)).text.utf8ByteSize := by
  induction rest generalizing x with
  | nil => exact (List.append_nil x).symm ▸ Nat.le_refl _
  | cons name rest ih =>
    rw [List.append_cons]
    exact Nat.le_trans (size_pathOf_concat x name) (ih _)

/-- What is gone to straight down is gone to through what is above. -/
theorem exists_reach_of_append {rest : Location} (h : d.reach (x ++ rest) = .ok n) :
    ∃ k, d.reach x = .ok k ∧ k.reach rest = .ok n := by
  have hsize := size_lt_of_reach h
  rw [reach, if_pos hsize, DiskNode.reach_append] at h
  obtain ⟨k, hk, h⟩ := bind_eq_ok h
  exact ⟨k, by rw [reach, if_pos (Nat.lt_of_le_of_lt (size_pathOf_le x) hsize), hk], h⟩

/-- Names that are in the tree lead to their location from the root. -/
theorem locateFromRoot_eq {rest : Location} (hnames : ∀ s ∈ rest, IsName s) (h : d.reach (x ++ rest) = .ok n)
    (hlink : n.kind ≠ .link) : d.locateFromRoot links x rest = .ok (x ++ rest) := by
  induction rest generalizing x with
  | nil => rw [locateFromRoot, List.append_nil]
  | cons name rest ih =>
    obtain ⟨hname, hrest⟩ := List.forall_mem_cons.mp hnames
    rw [List.append_cons] at h ⊢
    obtain ⟨k, hk, hgo⟩ := exists_reach_of_append h
    have hkind : k.kind ≠ .link := by
      intro hkind
      obtain ⟨target, rfl⟩ := exists_link hkind
      cases rest with
      | nil => exact hlink (Except.ok.inj hgo ▸ hkind)
      | cons => cases hgo
    have hgoes : goesOn (x ++ [name]) k rest = .ok () := by rw [goesOn, askDirectory_eq_false hrest]; rfl
    rw [locateFromRoot, if_neg (by simp [hname.ne_dot, hname.ne_empty]), if_neg hname.parent, hk]
    cases k with
    | link target => exact absurd rfl hkind
    | _ => simp only [hgoes]; exact ih hrest h

/-- The path of a location is its own absolute form. -/
theorem absolute_pathOf (hx : ∀ s ∈ x, IsName s) (h : d.reach x = .ok n) (hlink : n.kind ≠ .link) :
    d.absolute (pathOf x) = .ok (pathOf x) := by
  have htext : (pathOf x).text.isEmpty = false := by simp [pathOf]
  rw [absolute, holdsZero_pathOf hx, htext, startOf, isAbsolute_pathOf, names_pathOf hx]
  simp only [if_true, Bool.false_eq_true, if_false, bind, Except.bind]
  split
  · rename_i hnil
    subst hnil
    simp [locateFromRoot, Except.map]
  · rw [locateFromRoot_eq (x := []) hx h hlink]
    rfl

theorem HasFileLinks.absolute (h : d.HasFileLinks l) : d.absolute (pathOf l) = .ok (pathOf l) := by
  obtain ⟨entries, access, hroot⟩ := h.exists_entries
  exact absolute_pathOf h.named (h.reach List.prefix_rfl hroot DiskNode.directory_ne_link).1 DiskNode.directory_ne_link

/-! ### Absolute forms that there are not -/

theorem size_pathOf_dropLast_le (x : Location) :
    (pathOf x.dropLast).text.utf8ByteSize ≤ (pathOf x).text.utf8ByteSize := by
  rcases List.eq_nil_or_concat x with rfl | ⟨x, name, rfl⟩
  · exact Nat.le_refl _
  · rw [List.concat_eq_append, List.dropLast_concat]
    exact size_pathOf_le x

/-- From a location whose path is short, the names lead to such locations only. -/
theorem size_lt_of_locateFromRoot : ∀ {links : Nat} {x : Location} {names : List String},
    (pathOf x).text.utf8ByteSize < pathLimit → d.locateFromRoot links x names = .ok l →
      (pathOf l).text.utf8ByteSize < pathLimit
  | links, x, [], hx, h => by
    rw [locateFromRoot] at h
    exact Except.ok.inj h ▸ hx
  | links, x, name :: names, hx, h => by
    by_cases hskip : name = "." ∨ name = ""
    · rw [locateFromRoot, if_pos hskip] at h
      exact size_lt_of_locateFromRoot hx h
    by_cases hup : name = ".."
    · rw [locateFromRoot, if_neg hskip, if_pos hup] at h
      exact size_lt_of_locateFromRoot (Nat.lt_of_le_of_lt (size_pathOf_dropLast_le x) hx) h
    obtain ⟨n, hn, hlink, hplain⟩ := exists_of_locateFromRoot_cons hskip hup h
    by_cases hkind : n.kind = .link
    · obtain ⟨target, rfl⟩ := exists_link hkind
      obtain ⟨links', rfl, hgo⟩ := hlink target rfl
      refine size_lt_of_locateFromRoot ?_ hgo
      split
      · decide
      · exact hx
    · exact size_lt_of_locateFromRoot (size_lt_of_reach hn) (hplain hkind)
termination_by links _ names => (links, names.length)

/-- A path that leads to a location with a long path has no absolute form, unless it starts from such a location. -/
theorem exists_error_of_far (h : d.locate .target p = .ok l) (hfar : pathLimit ≤ (pathOf l).text.utf8ByteSize)
    (hstart : p.isAbsolute = true ∨ (pathOf d.here.location).text.utf8ByteSize < pathLimit) :
    ∃ e, d.absolute p = .error e := by
  cases hq : d.absolute p with
  | error e => exact ⟨e, rfl⟩
  | ok q =>
    obtain ⟨rfl, -⟩ := eq_of_absolute h hq
    unfold absolute at hq
    split at hq
    · cases hq
    split at hq
    · cases hq
    obtain ⟨x, hx, hq⟩ := bind_eq_ok hq
    obtain ⟨y, hy, hpath⟩ := eq_ok_of_map hq
    obtain ⟨t, ht, rfl, -⟩ := isIn_of_startOf hx
    have hshort : (pathOf t.location).text.utf8ByteSize < pathLimit := by
      subst ht
      split
      · decide
      · exact hstart.resolve_left ‹_›
    exact absurd (hpath ▸ size_lt_of_locateFromRoot hshort hy) (Nat.not_lt.mpr hfar)

end

end Disk

end TypeFinder
