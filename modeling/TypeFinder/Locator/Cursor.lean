import TypeFinder.Event
import TypeFinder.Locator
import TypeFinder.Locator.SourceFile

/-! The search itself. A cursor goes through the roots of a locator step by step: it walks the directories, reads the
    source files that it comes to, and yields those that declare types. What it does not need yet it has not
    looked at. Where something cannot be walked or read, the policy decides whether the failure is yielded and
    ends the search or is passed over. -/

namespace TypeFinder

/-- What a search yields. -/
abbrev Item := Except Failure SourceFile

/-- A search that may be under way. -/
structure Cursor (σ : Type) [FileSystem σ] where
  /-- The roots that are not begun. -/
  roots : List Root
  options : SearchOptions
  /-- The walk through the root that is begun, if it is a directory. -/
  walk : Option (FileSystem.Walk σ) := none
  /-- A failure has ended the search. -/
  ended : Bool := false

/-- What one step of a search does: it may yield an item, and leaves the cursor behind it. -/
structure Step (σ : Type) [FileSystem σ] where
  events : List Event := []
  item : Option Item := none
  cursor : Cursor σ

namespace Cursor
variable {σ : Type} [FileSystem σ]

/-- The search through all roots, before its first step. -/
def ofLocator (σ : Type) [FileSystem σ] (l : Locator) : Cursor σ := { roots := l.roots, options := l.options }

/-- The step at a failure. -/
def fail (c : Cursor σ) (f : Failure) : Step σ :=
  match c.options.onFailure with
  | .abort => { item := some (.error f), cursor := { c with ended := true } }
  | .skip => { events := [.skipping f], cursor := c }

/-- The step at a file. -/
def visit (fs : σ) (c : Cursor σ) (path : Path) : Step σ :=
  if path.isSource then
    match FileSystem.read fs path with
    | .error cause => c.fail ⟨path, cause⟩
    | .ok contents =>
      match SourceFile.ofContents? path contents with
      | none => { events := [.nothingIn path], cursor := c }
      | some f => { events := [.found f.declarations.length path], item := some (.ok f), cursor := c }
  else { cursor := c }

/-- The next step, if the search is not over. -/
def step? (fs : σ) (c : Cursor σ) : Option (Step σ) :=
  if c.ended then none
  else
    match c.walk with
    | some w =>
      match FileSystem.next? fs w with
      | none => some { cursor := { c with walk := none } }
      | some (.error f, w) => some ({ c with walk := some w }.fail f)
      | some (.ok e, w) =>
        let c := { c with walk := some w }
        some (if e.kind = .file then c.visit fs e.path else { cursor := c })
    | none =>
      match c.roots with
      | [] => none
      | r :: roots =>
        let c := { c with roots }
        if r.kind = .directory then
          some { events := [.walking r.path],
                 cursor := { c with walk := some (FileSystem.walk fs r.path c.options.walk) } }
        else some (c.visit fs r.path)

/-! ### Every search ends -/

/-- How much is ahead: the roots, and the walk that is begun. -/
def ahead (fs : σ) (c : Cursor σ) : Nat × Nat :=
  (c.roots.length, c.walk.elim 0 fun w => FileSystem.ahead fs w + 1)

@[simp] theorem fail_ahead (fs : σ) (c : Cursor σ) (f : Failure) : (c.fail f).cursor.ahead fs = c.ahead fs := by
  unfold fail
  split <;> rfl

@[simp] theorem visit_ahead (fs : σ) (c : Cursor σ) (p : Path) : (c.visit fs p).cursor.ahead fs = c.ahead fs := by
  unfold visit
  split
  · split
    · exact fail_ahead ..
    · split <;> rfl
  · rfl

/-- The order of what is ahead: fewer roots, or as many and less of the walk. -/
abbrev Less : Nat × Nat → Nat × Nat → Prop := Prod.Lex (· < ·) (· < ·)

theorem less_of_roots_walk {fs : σ} {c c' : Cursor σ} (hr : c'.roots = c.roots)
    (hw : (c'.walk.elim 0 fun w => FileSystem.ahead fs w + 1) < c.walk.elim 0 fun w => FileSystem.ahead fs w + 1) :
    Less (c'.ahead fs) (c.ahead fs) := by
  unfold ahead
  rw [hr]
  exact .right _ hw

theorem less_of_step {fs : σ} {c : Cursor σ} {s : Step σ} (h : c.step? fs = some s) :
    Less (s.cursor.ahead fs) (c.ahead fs) := by
  unfold step? at h
  split at h
  · cases h
  split at h
  next w hw =>
    split at h
    · cases h
      exact less_of_roots_walk rfl (by simp [hw])
    next f w' hn =>
      cases h
      rw [fail_ahead]
      exact less_of_roots_walk rfl (by simpa [hw] using FileSystem.ahead_lt hn)
    next e w' hn =>
      cases h
      have hlt : Less ({ c with walk := some w' }.ahead fs) (c.ahead fs) :=
        less_of_roots_walk rfl (by simpa [hw] using FileSystem.ahead_lt hn)
      split
      · rw [visit_ahead]
        exact hlt
      · exact hlt
  next hw =>
    split at h
    · cases h
    next r roots hr =>
      dsimp only at h
      split at h
      · cases h
        exact .left _ _ (by simp [hr])
      · cases h
        rw [visit_ahead]
        exact .left _ _ (by simp [hr])

theorem wf_less : WellFounded Less := (Prod.lex ⟨_, Nat.lt_wfRel.wf⟩ ⟨_, Nat.lt_wfRel.wf⟩).wf

/-! ### Running -/

/-- What a search does until it yields an item or is over. -/
structure Advance (σ : Type) [FileSystem σ] where
  events : List Event
  item : Option Item
  cursor : Cursor σ

/-- Goes on to the next item, behind the events so far. -/
def next (fs : σ) (c : Cursor σ) (events : List Event := []) : Advance σ :=
  match _h : c.step? fs with
  | none => ⟨events, none, c⟩
  | some ⟨more, some item, c'⟩ => ⟨events ++ more, some item, c'⟩
  | some ⟨more, none, c'⟩ => c'.next fs (events ++ more)
termination_by wf_less.wrap (c.ahead fs)
decreasing_by exact less_of_step _h

/-- All steps of a search, each with its events and what it yields. -/
def trace (fs : σ) (c : Cursor σ) : List (List Event × Option Item) :=
  match _h : c.step? fs with
  | none => []
  | some s => (s.events, s.item) :: s.cursor.trace fs
termination_by wf_less.wrap (c.ahead fs)
decreasing_by exact less_of_step _h

/-- All that a search yields. -/
def items (fs : σ) (c : Cursor σ) : List Item := (c.trace fs).filterMap (·.2)

/-- All events of a search. -/
def events (fs : σ) (c : Cursor σ) : List Event := (c.trace fs).flatMap (·.1)

end Cursor
end TypeFinder
