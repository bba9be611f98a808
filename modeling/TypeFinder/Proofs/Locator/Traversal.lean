import TypeFinder.Locator.Search

/-! What a search goes through. The roots lead to files, one after the other, and to failures of walks; of a file there
    may come a descriptor, a failure to read it, or nothing. That sequence does not depend on the policy. A cursor
    meets it element by element, and the policy only decides what is made of a failure. -/

namespace TypeFinder

section
variable {σ : Type} [FileSystem σ]

/-- The file or the failure that a step of a walk comes to. What is no file is passed. -/
def leaf? : Except Failure Entry → Option (Except Failure Path)
  | .error f => some (.error f)
  | .ok e => if e.kind = .file then some (.ok e.path) else none

/-- The files that a walk comes to, and its failures. -/
def leaves (fs : σ) (w : FileSystem.Walk σ) : List (Except Failure Path) := (FileSystem.walked fs w).filterMap leaf?

/-- The files that a root leads to, and the failures on the way. -/
def Root.leaves (fs : σ) (o : WalkOptions) (r : Root) : List (Except Failure Path) :=
  if r.kind = .directory then TypeFinder.leaves fs (FileSystem.walk fs r.path o) else [.ok r.path]

/-- What comes of looking into a file. -/
def look? (fs : σ) (p : Path) : Option Item :=
  if p.isSource then
    match FileSystem.read fs p with
    | .error cause => some (.error ⟨p, cause⟩)
    | .ok contents => (SourceFile.ofContents? p contents).map .ok
  else none

/-- What is met at a file, or at a failure of a walk. -/
def meet? (fs : σ) : Except Failure Path → Option Item
  | .error f => some (.error f)
  | .ok p => look? fs p

/-- All that a traversal of the roots meets, in order: files that declare types, and failures. -/
def met (fs : σ) (o : WalkOptions) (roots : List Root) : List Item :=
  (roots.flatMap (Root.leaves fs o)).filterMap (meet? fs)

/-- The failures among what is met. -/
def failures (met : List Item) : List Failure :=
  met.filterMap fun
    | .error f => some f
    | .ok _ => none

/-- What is met up to and with the first failure. -/
def upToFailure : List Item → List Item
  | [] => []
  | .error f :: _ => [.error f]
  | .ok f :: rest => .ok f :: upToFailure rest

/-- What a policy makes of all that is met. -/
def Policy.pass : Policy → List Item → List Item
  | .abort => upToFailure
  | .skip => List.filter (·.isOk)

/-- What a policy reports of a failure. -/
def Policy.warnings : Policy → List Failure → List Event
  | .abort, _ => []
  | .skip, failures => failures.map .skipping

/-! ### Leaves -/

/-- A root that is no directory is not walked. -/
theorem Root.leaves_of_ne {fs : σ} {o : WalkOptions} {r : Root} (h : r.kind ≠ .directory) : r.leaves fs o = [.ok r.path] :=
  if_neg h

theorem filterMap_leaf? {α : Type} (f : α → Entry) (xs : List α) :
    (xs.map fun x => Except.ok (f x)).filterMap leaf? =
      ((xs.filter fun x => (f x).kind = .file).map fun x => (f x).path).map .ok := by
  induction xs with
  | nil => rfl
  | cons x xs ih =>
    rw [List.map_cons, List.filterMap_cons, ih, leaf?, List.filter_cons]
    by_cases hx : (f x).kind = .file <;> simp [hx]

theorem error_mem_filterMap_leaf? {steps : List (Except Failure Entry)} {f : Failure} :
    .error f ∈ steps.filterMap leaf? ↔ .error f ∈ steps := by
  rw [List.mem_filterMap]
  constructor
  · rintro ⟨step, hstep, hleaf⟩
    cases step with
    | error g =>
      obtain rfl := Except.error.inj (Option.some.inj hleaf)
      exact hstep
    | ok e =>
      rw [leaf?] at hleaf
      split at hleaf <;> cases hleaf
  · exact fun h => ⟨_, h, rfl⟩

theorem filter_filterMap_leaf? (steps : List (Except Failure Entry)) :
    (steps.filterMap leaf?).filter (·.isOk) = (steps.filter (·.isOk)).filterMap leaf? := by
  induction steps with
  | nil => rfl
  | cons step steps ih =>
    cases step with
    | error f => exact ih
    | ok e =>
      rw [List.filter_cons_of_pos rfl, List.filterMap_cons, List.filterMap_cons, ← ih, leaf?]
      by_cases hkind : e.kind = .file <;> simp [hkind, Except.isOk, Except.toBool]

/-- A search that passes failures over depends only on the files that its roots lead to. -/
theorem filter_met (fs : σ) (ls : List (Except Failure Path)) :
    (ls.filterMap (meet? fs)).filter (·.isOk) = ((ls.filter (·.isOk)).filterMap (meet? fs)).filter (·.isOk) := by
  induction ls with
  | nil => rfl
  | cons leaf ls ih =>
    cases leaf with
    | error f => exact ih
    | ok p =>
      rw [List.filter_cons_of_pos rfl, List.filterMap_cons, List.filterMap_cons]
      cases meet? fs (.ok p) with
      | none => exact ih
      | some i =>
        cases i with
        | error f => exact ih
        | ok f => exact congrArg (Except.ok f :: ·) ih

/-! ### Steps of a walk -/

namespace FileSystem
variable {s : σ} {w w' : Walk σ} {step : Except Failure Entry}

theorem walked_of_none (h : next? s w = none) : walked s w = [] := by
  rw [walked]
  split
  · rfl
  · rename_i h'
    rw [h] at h'
    cases h'

theorem walked_of_some (h : next? s w = some (step, w')) : walked s w = step :: walked s w' := by
  rw [walked]
  split
  · rename_i h'
    rw [h] at h'
    cases h'
  · rename_i h'
    rw [h] at h'
    cases h'
    rfl

end FileSystem

namespace Cursor
variable {fs : σ} {c c' : Cursor σ} {s : Step σ}

/-- What a cursor is still to meet. -/
def left (fs : σ) (c : Cursor σ) : List Item :=
  ((c.walk.elim [] (leaves fs)) ++ c.roots.flatMap (Root.leaves fs c.options.walk)).filterMap (meet? fs)

/-- The cursor goes on with the options of another one. -/
structure Continues (c c' : Cursor σ) : Prop where
  options : c'.options = c.options
  ended : c'.ended = false

/-- The events are of less weight than a warning. -/
def Quiet (events : List Event) : Prop := ∀ e ∈ events, e.level ≠ .warn

theorem quiet_nil : Quiet [] := by simp [Quiet]

theorem quiet_singleton {e : Event} (h : e.level ≠ .warn) : Quiet [e] := by simpa [Quiet] using h

/-- What a step does: it meets nothing, a file or a failure, and all else is still to be met. -/
inductive Does (fs : σ) (c : Cursor σ) : Step σ → Prop
  | nothing {events : List Event} {c' : Cursor σ} : Continues c c' → Quiet events → c.left fs = c'.left fs →
      Does fs c ⟨events, none, c'⟩
  | file {events : List Event} {f : SourceFile} {c' : Cursor σ} : Continues c c' → Quiet events →
      c.left fs = .ok f :: c'.left fs → Does fs c ⟨events, some (.ok f), c'⟩
  | failure {f : Failure} {c' : Cursor σ} : Continues c c' → c.left fs = .error f :: c'.left fs → Does fs c (c'.fail f)

/-- A file that is next to be met is met by visiting it. -/
theorem does_visit {p : Path} (hc : Continues c c') (h : c.left fs = (look? fs p).toList ++ c'.left fs) :
    Does fs c (c'.visit fs p) := by
  unfold look? at h
  unfold visit
  cases hsource : p.isSource with
  | false =>
    rw [hsource] at h
    exact .nothing hc quiet_nil h
  | true =>
    rw [hsource, if_pos rfl] at h
    rw [if_pos rfl]
    cases hread : FileSystem.read fs p with
    | error cause =>
      rw [hread] at h
      exact .failure hc h
    | ok contents =>
      rw [hread] at h
      dsimp only at h ⊢
      cases hf : SourceFile.ofContents? p contents with
      | none =>
        rw [hf] at h
        exact .nothing hc (quiet_singleton nofun) h
      | some f =>
        rw [hf] at h
        exact .file hc (quiet_singleton nofun) h

/-- In a walk, the next step is met before what is behind it. -/
theorem left_of_walk {w w' : FileSystem.Walk σ} {step : Except Failure Entry} (hw : c.walk = some w)
    (h : FileSystem.next? fs w = some (step, w')) :
    c.left fs = ((leaf? step).bind (meet? fs)).toList ++ { c with walk := some w' }.left fs := by
  cases hl : leaf? step with
  | none => simp [left, hw, leaves, FileSystem.walked_of_some h, hl]
  | some leaf => cases hm : meet? fs leaf <;> simp [left, hw, leaves, FileSystem.walked_of_some h, hl, hm]

/-- Each step meets what is next. -/
theorem does_step (hc : c.ended = false) (h : c.step? fs = some s) : Does fs c s := by
  unfold step? at h
  split at h
  · cases h
  split at h
  · rename_i w hw
    split at h
    · rename_i hn
      obtain rfl := Option.some.inj h
      exact .nothing ⟨rfl, hc⟩ quiet_nil (by simp [left, hw, leaves, FileSystem.walked_of_none hn])
    · rename_i f w' hn
      obtain rfl := Option.some.inj h
      exact .failure ⟨rfl, hc⟩ (left_of_walk hw hn)
    · rename_i e w' hn
      obtain rfl := Option.some.inj h
      have hleft := left_of_walk hw hn
      split
      · rename_i hk
        rw [leaf?, if_pos hk] at hleft
        exact does_visit ⟨rfl, hc⟩ hleft
      · rename_i hk
        rw [leaf?, if_neg hk] at hleft
        exact .nothing ⟨rfl, hc⟩ quiet_nil hleft
  · rename_i hw
    split at h
    · cases h
    · rename_i r roots hr
      dsimp only at h
      split at h
      · rename_i hk
        obtain rfl := Option.some.inj h
        refine .nothing ⟨rfl, hc⟩ (quiet_singleton nofun) ?_
        simp [left, hw, hr, Root.leaves, hk]
      · rename_i hk
        obtain rfl := Option.some.inj h
        refine does_visit ⟨rfl, hc⟩ ?_
        cases hl : look? fs r.path <;> simp [left, hw, hr, Root.leaves, hk, meet?, hl]

/-- A search that is over has nothing left and never goes on, whatever becomes of the file system. -/
theorem over_of_none (h : c.step? fs = none) : (c.ended = false → c.left fs = []) ∧ ∀ fs' : σ, c.step? fs' = none := by
  cases hc : c.ended with
  | true => exact ⟨nofun, fun fs' => by simp [step?, hc]⟩
  | false =>
    rw [step?, hc, if_neg Bool.false_ne_true] at h
    split at h
    · split at h <;> cases h
    · rename_i hw
      split at h
      · rename_i hr
        exact ⟨fun _ => by simp [left, hw, hr], fun fs' => by simp [step?, hc, hw, hr]⟩
      · dsimp only at h
        split at h <;> cases h

/-! ### The whole search -/

theorem trace_of_none (h : c.step? fs = none) : c.trace fs = [] := by
  rw [trace]
  split
  · rfl
  · rename_i h'
    rw [h] at h'
    cases h'

theorem trace_of_some (h : c.step? fs = some s) : c.trace fs = (s.events, s.item) :: s.cursor.trace fs := by
  rw [trace]
  split
  · rename_i h'
    rw [h] at h'
    cases h'
  · rename_i h'
    rw [h] at h'
    cases h'
    rfl

theorem items_of_none (h : c.step? fs = none) : c.items fs = [] := by simp [items, trace_of_none h]

theorem items_of_some (h : c.step? fs = some s) : c.items fs = s.item.toList ++ s.cursor.items fs := by
  cases hi : s.item <;> simp [items, trace_of_some h, hi]

theorem events_of_none (h : c.step? fs = none) : c.events fs = [] := by simp [events, trace_of_none h]

theorem events_of_some (h : c.step? fs = some s) : c.events fs = s.events ++ s.cursor.events fs := by
  simp [events, trace_of_some h]

/-- The search goes by its steps: what is shown of a cursor from the cursor behind its next step holds of all. -/
theorem step_induction {P : Cursor σ → Prop} (fs : σ) (done : ∀ c, c.step? fs = none → P c)
    (step : ∀ c s, c.step? fs = some s → P s.cursor → P c) (c : Cursor σ) : P c := by
  refine (InvImage.wf (ahead fs) wf_less).induction c fun c ih => ?_
  cases h : c.step? fs with
  | none => exact done c h
  | some s => exact step c s h (ih s.cursor (less_of_step h))

theorem fail_of_abort {f : Failure} (h : c.options.onFailure = .abort) :
    c.fail f = { item := some (.error f), cursor := { c with ended := true } } := by
  rw [fail, h]

theorem fail_of_skip {f : Failure} (h : c.options.onFailure = .skip) :
    c.fail f = { events := [.skipping f], cursor := c } := by
  rw [fail, h]

theorem step?_of_ended (h : c.ended = true) : c.step? fs = none := by simp [step?, h]

/-- The warnings among the events. -/
def warnings (events : List Event) : List Event := events.filter (·.level = .warn)

theorem warnings_append_of_quiet {events more : List Event} (h : Quiet events) :
    warnings (events ++ more) = warnings more := by
  have hnone : events.filter (·.level = .warn) = [] := by simpa [Quiet] using h
  rw [warnings, List.filter_append, hnone, List.nil_append, warnings]

/-- A search yields what its policy makes of all that it is to meet, and warns of the failures that are passed over. -/
theorem items_warnings_eq (hc : c.ended = false) :
    c.items fs = c.options.onFailure.pass (c.left fs) ∧
      warnings (c.events fs) = c.options.onFailure.warnings (failures (c.left fs)) := by
  induction c using step_induction fs with
  | done c h =>
    rw [items_of_none h, events_of_none h, (over_of_none h).1 hc]
    cases c.options.onFailure <;> exact ⟨rfl, rfl⟩
  | step c s h ih =>
    rw [items_of_some h, events_of_some h]
    cases does_step hc h with
    | nothing hnext hquiet hleft =>
      rw [hleft, ← hnext.options, warnings_append_of_quiet hquiet]
      exact ih hnext.ended
    | @file _ f c' hnext hquiet hleft =>
      obtain ⟨hitems, hwarnings⟩ : c'.items fs = _ ∧ warnings (c'.events fs) = _ := ih hnext.ended
      rw [hleft, ← hnext.options, warnings_append_of_quiet hquiet, hwarnings, hitems]
      cases c'.options.onFailure <;> exact ⟨rfl, rfl⟩
    | @failure f c' hnext hleft =>
      rw [hleft, ← hnext.options]
      cases hp : c'.options.onFailure with
      | abort =>
        rw [fail_of_abort hp, items_of_none (step?_of_ended rfl), events_of_none (step?_of_ended rfl)]
        exact ⟨rfl, rfl⟩
      | skip =>
        rw [fail_of_skip hp] at ih ⊢
        obtain ⟨hitems, hwarnings⟩ : c'.items fs = _ ∧ warnings (c'.events fs) = _ := ih hnext.ended
        rw [hp] at hitems hwarnings
        refine ⟨hitems, ?_⟩
        show Event.skipping f :: warnings (c'.events fs) = _
        rw [hwarnings]
        rfl

end Cursor

namespace Locator
variable {fs : σ} {l : Locator}

/-- A search yields what the policy makes of all that the traversal of its roots meets. -/
theorem items_eq : l.items fs = l.options.onFailure.pass (met fs l.options.walk l.roots) :=
  (Cursor.items_warnings_eq (c := Cursor.ofLocator σ l) rfl).1

/-- A search warns of the failures that it passes over, in order. -/
theorem warnings_eq :
    Cursor.warnings (l.events fs) = l.options.onFailure.warnings (failures (met fs l.options.walk l.roots)) :=
  (Cursor.items_warnings_eq (c := Cursor.ofLocator σ l) rfl).2

end Locator

end

end TypeFinder
