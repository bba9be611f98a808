import TypeFinder.Proofs.Locator.Traversal

/-! The two policies. Both searches go through the same traversal; they part at the first failure, which ends the one
    and is passed over in the other. A search that is over, or that has yielded a failure, yields nothing more. -/

namespace TypeFinder

section
variable {σ : Type} [FileSystem σ]

namespace Cursor
variable {fs : σ} {c c' : Cursor σ} {s : Step σ} {events : List Event}

/-! ### Calling for the next item -/

theorem next_of_none (h : c.step? fs = none) : c.next fs events = ⟨events, none, c⟩ := by
  rw [next]
  split
  · rfl
  · rename_i h'
    rw [h] at h'
    cases h'
  · rename_i h'
    rw [h] at h'
    cases h'

theorem next_of_item {more : List Event} {item : Item} (h : c.step? fs = some ⟨more, some item, c'⟩) :
    c.next fs events = ⟨events ++ more, some item, c'⟩ := by
  rw [next]
  split <;> rename_i h' <;> rw [h] at h' <;> cases h'
  rfl

theorem next_of_nothing {more : List Event} (h : c.step? fs = some ⟨more, none, c'⟩) :
    c.next fs events = c'.next fs (events ++ more) := by
  rw [next]
  split <;> rename_i h' <;> rw [h] at h' <;> cases h'
  rfl

/-- Events so far only stand in front. -/
theorem next_eq (events : List Event) :
    c.next fs events = ⟨events ++ (c.next fs).events, (c.next fs).item, (c.next fs).cursor⟩ := by
  induction c using step_induction fs generalizing events with
  | done c h => simp [next_of_none h]
  | step c s h ih =>
    obtain ⟨more, item, c'⟩ := s
    cases item with
    | none =>
      have ih (events : List Event) : c'.next fs events = _ := ih events
      rw [next_of_nothing h, next_of_nothing h, ih (events ++ more), ih ([] ++ more)]
      simp
    | some item => simp [next_of_item h]

/-- Called again and again, the cursor yields these items, with these events, and then nothing. -/
inductive Drains (fs : σ) : Cursor σ → List Item → List Event → Prop
  | done {c c' : Cursor σ} {events : List Event} : c.next fs = ⟨events, none, c'⟩ → Drains fs c [] events
  | item {c c' : Cursor σ} {events more : List Event} {item : Item} {items : List Item} :
      c.next fs = ⟨events, some item, c'⟩ → Drains fs c' items more → Drains fs c (item :: items) (events ++ more)

/-- A step that yields nothing belongs to the call that goes on behind it. -/
theorem Drains.behind {more : List Event} {items : List Item} (h : c.step? fs = some ⟨more, none, c'⟩)
    (hd : Drains fs c' items events) : Drains fs c items (more ++ events) := by
  have hnext : c.next fs = ⟨more ++ (c'.next fs).events, (c'.next fs).item, (c'.next fs).cursor⟩ := by
    rw [next_of_nothing h, next_eq]
    rfl
  cases hd with
  | done hc' =>
    rw [hc'] at hnext
    exact .done hnext
  | item hc' hrest =>
    rw [hc'] at hnext
    rw [← List.append_assoc]
    exact .item hnext hrest

/-- The items and events of a search are those of its calls. -/
theorem drains (fs : σ) (c : Cursor σ) : Drains fs c (c.items fs) (c.events fs) := by
  induction c using step_induction fs with
  | done c h =>
    rw [items_of_none h, events_of_none h]
    exact .done (next_of_none h)
  | step c s h ih =>
    rw [items_of_some h, events_of_some h]
    obtain ⟨more, item, c'⟩ := s
    cases item with
    | none => exact ih.behind h
    | some item => exact .item (next_of_item h) ih

/-! ### After the end -/

/-- What the calls bring, each with the file system as it is then. -/
def call (fs : Nat → σ) (c : Cursor σ) : Nat → Advance σ
  | 0 => c.next (fs 0)
  | n + 1 => (c.call fs n).cursor.next (fs (n + 1))

/-- Nothing follows a call that yields nothing or a failure, whatever becomes of the file system. -/
def Fused (c : Cursor σ) : Prop :=
  ∀ (fs : Nat → σ) n, ((c.call fs n).item = none ∨ ∃ f, (c.call fs n).item = some (.error f)) →
    ∀ k, n < k → (c.call fs k).item = none

/-- Only a failure that ends the search is yielded. -/
theorem ended_of_error {f : Failure} (h : c.step? fs = some s) (hs : s.item = some (.error f)) :
    s.cursor.ended = true := by
  cases hc : c.ended with
  | true =>
    rw [step?_of_ended hc] at h
    cases h
  | false =>
    cases does_step hc h with
    | nothing => cases hs
    | file => cases hs
    | @failure g c' =>
      cases hp : c'.options.onFailure with
      | abort => rw [fail_of_abort hp]
      | skip =>
        rw [fail_of_skip hp] at hs
        cases hs

/-- A call that yields nothing or a failure leaves a cursor that never goes on. -/
theorem over_of_next (h : (c.next fs).item = none ∨ ∃ f, (c.next fs).item = some (.error f)) (fs' : σ) :
    (c.next fs).cursor.step? fs' = none := by
  induction c using step_induction fs with
  | done c hc =>
    rw [next_of_none hc]
    exact (over_of_none hc).2 fs'
  | step c s hs ih =>
    obtain ⟨more, item, c'⟩ := s
    cases item with
    | none =>
      rw [next_of_nothing hs, next_eq] at h ⊢
      exact ih h
    | some item =>
      rw [next_of_item hs] at h ⊢
      obtain h | ⟨f, hf⟩ := h
      · cases h
      · exact step?_of_ended (ended_of_error hs hf)

theorem over_of_call {fs : Nat → σ} {n : Nat}
    (h : (c.call fs n).item = none ∨ ∃ f, (c.call fs n).item = some (.error f)) (fs' : σ) :
    (c.call fs n).cursor.step? fs' = none := by
  cases n with
  | zero => exact over_of_next h fs'
  | succ n => exact over_of_next h fs'

theorem fused (c : Cursor σ) : c.Fused := by
  intro fs n h k hk
  -- The call right behind yields nothing, and so the one behind that.
  have hstep {n : Nat} (h : (c.call fs n).item = none ∨ ∃ f, (c.call fs n).item = some (.error f)) :
      (c.call fs (n + 1)).item = none := by
    rw [call, next_of_none (over_of_call h _)]
  induction hk with
  | refl => exact hstep h
  | step _ ih => exact hstep (.inl ih)

end Cursor

/-! ### Files and failures -/

section
variable {l files rest items : List Item} {f : Failure} {i : Item} {policy : Policy}

theorem isOk_of_failures_eq_nil (h : failures l = []) : ∀ i ∈ l, ∃ f, i = .ok f := by
  intro i hi
  cases i with
  | ok f => exact ⟨f, rfl⟩
  | error f => simpa using List.filterMap_eq_nil_iff.mp h _ hi

theorem filter_isOk_of_failures_eq_nil (h : failures l = []) : l.filter (·.isOk) = l := by
  rw [List.filter_eq_self]
  intro i hi
  obtain ⟨f, rfl⟩ := isOk_of_failures_eq_nil h i hi
  rfl

theorem upToFailure_append (h : failures files = []) : upToFailure (files ++ rest) = files ++ upToFailure rest := by
  induction files with
  | nil => rfl
  | cons i files ih =>
    obtain ⟨f, rfl⟩ := isOk_of_failures_eq_nil h i List.mem_cons_self
    rw [List.cons_append, upToFailure, ih h]
    rfl

theorem mem_of_mem_pass (h : i ∈ policy.pass l) : i ∈ l := by
  cases policy with
  | skip => exact (List.mem_filter.mp h).1
  | abort =>
    induction l with
    | nil => cases h
    | cons j l ih =>
      cases j with
      | error g => exact List.mem_cons.mpr (.inl (List.mem_singleton.mp h))
      | ok g =>
        rcases List.mem_cons.mp h with rfl | h
        · exact List.mem_cons_self
        · exact List.mem_cons_of_mem _ (ih h)

theorem exists_error_mem_upToFailure (h : failures items ≠ []) : ∃ f, Except.error f ∈ upToFailure items := by
  induction items with
  | nil => exact absurd rfl h
  | cons i items ih =>
    cases i with
    | error f => exact ⟨f, List.mem_cons_self⟩
    | ok f =>
      obtain ⟨e, he⟩ := ih h
      exact ⟨e, List.mem_cons_of_mem _ he⟩

/-- Under the policies together: all files, unless there is a failure and it ends the search. -/
theorem Policy.pass_eq (h : ¬ (policy = .abort ∧ failures items ≠ [])) :
    policy.pass items = items.filter (·.isOk) := by
  cases policy with
  | skip => rfl
  | abort =>
    have hnil : failures items = [] := Classical.byContradiction fun hne => h ⟨rfl, hne⟩
    have hall : upToFailure (items ++ []) = items ++ upToFailure [] := upToFailure_append hnil
    rw [List.append_nil, upToFailure, List.append_nil] at hall
    rw [filter_isOk_of_failures_eq_nil hnil]
    exact hall

/-- A failure is one of a walk, or a source file that cannot be read. -/
theorem meet?_eq_error_iff {fs : σ} {leaf : Except Failure Path} : meet? fs leaf = some (.error f) ↔
    leaf = .error f ∨ leaf = .ok f.path ∧ f.path.isSource = true ∧ FileSystem.read fs f.path = .error f.cause := by
  cases leaf with
  | error g => simp [meet?]
  | ok p =>
    rw [meet?, look?]
    constructor
    · intro h
      split at h
      · split at h
        · rename_i hsource _ cause hread
          obtain rfl := Except.error.inj (Option.some.inj h)
          exact .inr ⟨rfl, hsource, hread⟩
        · obtain ⟨g, -, hg⟩ := Option.map_eq_some_iff.mp h
          cases hg
      · cases h
    · rintro (h | ⟨h, hsource, hread⟩)
      · cases h
      · obtain rfl := Except.ok.inj h
        rw [if_pos hsource, hread]

/-- A traversal meets the failures of walks, and one for each source file that cannot be read. -/
theorem error_mem_met_iff {fs : σ} {o : WalkOptions} {roots : List Root} : .error f ∈ met fs o roots ↔
    ∃ r ∈ roots, .error f ∈ r.leaves fs o ∨
      .ok f.path ∈ r.leaves fs o ∧ f.path.isSource = true ∧ FileSystem.read fs f.path = .error f.cause := by
  rw [met, List.mem_filterMap]
  constructor
  · rintro ⟨leaf, hleaf, hmeet⟩
    obtain ⟨r, hr, hleaf⟩ := List.mem_flatMap.mp hleaf
    rcases meet?_eq_error_iff.mp hmeet with rfl | ⟨rfl, hread⟩
    · exact ⟨r, hr, .inl hleaf⟩
    · exact ⟨r, hr, .inr ⟨hleaf, hread⟩⟩
  · rintro ⟨r, hr, hleaf | ⟨hleaf, hread⟩⟩
    · exact ⟨_, List.mem_flatMap.mpr ⟨r, hr, hleaf⟩, rfl⟩
    · exact ⟨_, List.mem_flatMap.mpr ⟨r, hr, hleaf⟩, meet?_eq_error_iff.mpr (.inr ⟨rfl, hread⟩)⟩

theorem failures_ne_nil_of_mem (h : .error f ∈ items) : failures items ≠ [] :=
  List.ne_nil_of_mem (List.mem_filterMap.mpr ⟨_, h, rfl⟩)

/-- A failure that a search yields is one of a walk, or a file that cannot be read. -/
theorem Locator.exists_leaf_of_error {fs : σ} {l : Locator} (h : .error f ∈ l.items fs) :
    ∃ r ∈ l.roots, .error f ∈ r.leaves fs l.options.walk ∨
      .ok f.path ∈ r.leaves fs l.options.walk ∧ FileSystem.read fs f.path = .error f.cause := by
  rw [Locator.items_eq] at h
  obtain ⟨r, hr, hleaf⟩ := error_mem_met_iff.mp (mem_of_mem_pass h)
  exact ⟨r, hr, hleaf.imp_right (And.imp_right And.right)⟩

end

/-! ### Both policies -/

/-- The search through these roots under a policy, before its first step. -/
def search (o : WalkOptions) (roots : List Root) (policy : Policy) : Cursor σ :=
  .ofLocator σ { roots, options := { walk := o, onFailure := policy } }

/-- The items `aborted` and `skipped` are what the two searches yield: the same up to the first failure. -/
structure PartAtFailure (fs : σ) (o : WalkOptions) (roots : List Root) (aborted skipped : List Item) : Prop where
  aborting : ∃ events, (search o roots .abort).Drains fs aborted events
  /-- Every failure is warned of when it is passed over, in order, and of nothing else. -/
  skipping : ∃ events, (search o roots .skip).Drains fs skipped events ∧
    Cursor.warnings events = (failures (met fs o roots)).map .skipping
  /-- No file is lost behind a failure, and no failure is yielded. -/
  files : skipped = (met fs o roots).filter (·.isOk)
  oks : ∀ i ∈ skipped, ∃ f, i = .ok f
  unfailing : failures (met fs o roots) = [] → aborted = skipped
  failing : ∀ files f rest, met fs o roots = files ++ .error f :: rest → failures files = [] →
    aborted = files ++ [.error f] ∧ files <+: skipped
  fused : ∀ policy, (search (σ := σ) o roots policy).Fused

/-- The searches under the two policies yield the same up to the first failure. -/
theorem partAtFailure (fs : σ) (o : WalkOptions) (roots : List Root) :
    PartAtFailure fs o roots ((search o roots .abort).items fs) ((search o roots .skip).items fs) := by
  have hitems (policy : Policy) : (search o roots policy).items fs = policy.pass (met fs o roots) := Locator.items_eq
  have hwarnings : Cursor.warnings ((search o roots .skip).events fs) = _ := Locator.warnings_eq
  have habort : (search o roots .abort).items fs = upToFailure (met fs o roots) := hitems .abort
  have hskip : (search o roots .skip).items fs = (met fs o roots).filter (·.isOk) := hitems .skip
  refine
    { aborting := ⟨_, Cursor.drains fs _⟩
      skipping := ⟨_, Cursor.drains fs _, hwarnings⟩
      files := hskip
      oks := fun i hi => ?_
      unfailing := fun h => ?_
      failing := fun files f rest hmet h => ?_
      fused := fun policy => Cursor.fused _ }
  · rw [hskip, List.mem_filter] at hi
    cases i with
    | ok f => exact ⟨f, rfl⟩
    | error f => cases hi.2
  · have hall : upToFailure (met fs o roots ++ []) = met fs o roots ++ upToFailure [] := upToFailure_append h
    rw [List.append_nil, upToFailure, List.append_nil] at hall
    rw [habort, hskip, filter_isOk_of_failures_eq_nil h]
    exact hall
  · rw [habort, hskip, hmet, List.filter_append, filter_isOk_of_failures_eq_nil h]
    exact ⟨upToFailure_append h, List.prefix_append _ _⟩

end

end TypeFinder
